import Progression.Proofs.Markup.Expansion
import Progression.Proofs.Markup.Tag

/-!
Comments between the declarations of a block. The end of the block is found past them, but the
declarations are searched without regard to them: a comment counts for nothing only if no
declaration begins in it (`Silent`). Then the same entities are declared as in the block without
its comments, and texts are expanded alike (`expand_of_annotated`).
-/

namespace Progression.Markup

open Progression.Text

/-! ### Where a declaration begins -/

theorem eq_of_afterBlanks? {s r : List Char} (h : afterBlanks? s = some r) :
    ∃ g, Pad g ∧ g ≠ [] ∧ s = g ++ r := by
  cases s with
  | nil => cases h
  | cons c s =>
    simp only [afterBlanks?] at h
    split at h
    · next hc =>
      cases h
      refine ⟨c :: s.takeWhile isBlank, ?_, by simp, ?_⟩
      · exact List.forall_mem_cons.2 ⟨hc, fun d hd => List.mem_takeWhile_imp hd⟩
      · exact congrArg (c :: ·) List.takeWhile_append_dropWhile.symm
    · cases h

theorem eq_of_trimLeft {s r : List Char} (h : trimLeft s = r) : ∃ p, Pad p ∧ s = p ++ r :=
  ⟨s.takeWhile isBlank, fun _ hd => List.mem_takeWhile_imp hd,
    h ▸ List.takeWhile_append_dropWhile.symm⟩

/-- A declaration is found where one is written, and only there. -/
theorem declaration?_eq_some_iff {s r : List Char} {e : Entity} :
    declaration? s = some (e, r) ↔ ∃ d, DeclarationText e d ∧ s = d ++ r := by
  constructor
  · intro h
    simp only [declaration?, Option.bind_eq_bind, Option.bind_eq_some_iff] at h
    obtain ⟨s1, h1, s2, h2, ⟨name, s3⟩, h3, s4, h4, h⟩ := h
    have h1 := after?_eq_some_iff.1 h1
    obtain ⟨g, hg, hg1, rfl⟩ := eq_of_afterBlanks? h2
    obtain ⟨hn, rfl⟩ := eq_of_entityName? h3
    obtain ⟨g', hg', hg1', rfl⟩ := eq_of_afterBlanks? h4
    split at h
    · next q s5 =>
      split at h
      · next hq =>
        simp only [Option.bind_eq_some_iff] at h
        obtain ⟨⟨value, s6⟩, h5, h⟩ := h
        have hv := not_mem_of_cut? h5
        have h5 := eq_of_cut? h5
        dsimp only at h
        split at h
        · next r' h6 =>
          obtain ⟨p, hp, rfl⟩ := eq_of_trimLeft h6
          cases h
          refine ⟨_, .mk hn hg hg1 hg' hg1' hq hv hp, ?_⟩
          simp [h1, h5]
        · cases h
      · cases h
    · cases h
  · rintro ⟨d, hd, rfl⟩
    exact hd.declaration? r

/-- A text in which no declaration begins, whatever stands behind it. -/
def Silent (s : List Char) : Prop :=
  ∀ t, t <:+ s → t ≠ [] → ∀ e d r, DeclarationText e d → ¬ d <+: t ++ r

theorem silent_of_not_mem {s : List Char} (h : '<' ∉ s) : Silent s := by
  intro t ht hne e d r hd hpre
  obtain ⟨c, t, rfl⟩ := List.exists_cons_of_ne_nil hne
  have hc : c = '<' := by
    cases hd with
    | mk =>
      obtain ⟨u, hu⟩ := hpre
      exact (List.cons.inj hu).1.symm
  exact h (hc ▸ ht.subset List.mem_cons_self)

theorem Silent.yields {s : List Char} (h : Silent s) : Yields s [] := by
  intro r
  induction s with
  | nil => rfl
  | cons c s ih =>
    have hnone : declaration? (c :: (s ++ r)) = none := by
      rw [Option.eq_none_iff_forall_ne_some]
      rintro ⟨e, t⟩ ht
      obtain ⟨d, hd, heq⟩ := declaration?_eq_some_iff.1 ht
      exact h (c :: s) (List.suffix_refl _) (by simp) e d r hd ⟨t, heq.symm⟩
    rw [List.cons_append, declarations_of_none hnone]
    exact ih fun t ht => h t (ht.trans (List.suffix_cons c s))

/-! ### Comments -/

/-- A comment in a block in which no declaration begins. -/
structure IsRemark (body : List Char) : Prop where
  closed : ¬ "-->".toList <:+: body
  silent : Silent body

theorem blockEnd?_comment {s body r : List Char} (hcut : cut? "-->".toList s = some (body, r)) :
    Markup.blockEnd? true none ("<!--".toList ++ s) = (Markup.blockEnd? true none r).map
      fun p => ("<!--".toList ++ body ++ "-->".toList ++ p.1, p.2) := by
  have hopen : after? "<!--".toList ('<' :: '!' :: '-' :: '-' :: s) = some s :=
    after?_eq_some_iff.2 rfl
  show Markup.blockEnd? true none ('<' :: '!' :: '-' :: '-' :: s) = _
  rw [Markup.blockEnd?]
  simp only [Char.reduceEq, or_self, if_false, false_and]
  split
  · next h => cases h.symm.trans hopen
  · next h =>
    cases h.symm.trans hopen
    split
    · next h' => cases h'.symm.trans hcut
    · next h' =>
      cases h'.symm.trans hcut
      rfl

theorem Passed.comment {body : List Char} (h : ¬ "-->".toList <:+: body) :
    Passed true ("<!--".toList ++ (body ++ "-->".toList)) true := by
  intro r
  have hcut : cut? "-->".toList (body ++ ("-->".toList ++ r)) = some (body, r) :=
    cut?_append (m := ['-', '-']) (by decide) h r
  rw [List.append_assoc, List.append_assoc, blockEnd?_comment hcut]
  simp only [List.append_assoc]

theorem IsRemark.yields {body : List Char} (h : IsRemark body) :
    Yields ("<!--".toList ++ (body ++ "-->".toList)) [] := by
  have hopen : Yields "<!--".toList [] := by
    intro r
    have hnone : declaration? ('<' :: ("!--".toList ++ r)) = none :=
      declaration?_eq_none (by simp [after?])
    rw [show "<!--".toList ++ r = '<' :: ("!--".toList ++ r) from rfl, declarations_of_none hnone]
    exact yields_nil (by decide) r
  exact hopen.append (h.silent.yields.append (yields_nil (by decide)))

/-! ### Blocks with comments -/

/-- What stands between the brackets: declarations, blanks and comments; before it, the same with
the line breaks of the comments only. -/
inductive AnnotatedText : List Entity → List Char → List Char → Prop
  | nil : AnnotatedText [] [] []
  | blank {es : List Entity} {c : Char} {bare s : List Char} : isBlank c = true →
    AnnotatedText es bare s → AnnotatedText es (c :: bare) (c :: s)
  | declaration {e : Entity} {es : List Entity} {d bare s : List Char} : DeclarationText e d →
    AnnotatedText es bare s → AnnotatedText (e :: es) (d ++ bare) (d ++ s)
  | comment {es : List Entity} {body bare s : List Char} : IsRemark body →
    AnnotatedText es bare s → AnnotatedText es (List.replicate (body.count '\n') '\n' ++ bare)
      (("<!--".toList ++ (body ++ "-->".toList)) ++ s)

namespace AnnotatedText

variable {es : List Entity} {bare s : List Char} (h : AnnotatedText es bare s)

include h

theorem subset : SubsetText es bare := by
  induction h with
  | nil => exact .nil
  | blank hc _ ih => exact .blank hc ih
  | declaration hd _ ih => exact .declaration hd ih
  | @comment _ body bare _ _ _ ih =>
    induction body.count '\n' with
    | zero => exact ih
    | succ n ih' => exact .blank (c := '\n') (by decide) ih'

theorem passed : Passed true s true := by
  induction h with
  | nil => exact .nil
  | blank hc _ ih =>
    exact .append (s := [_]) (.plain (by simpa using not_mem_marks_of_isBlank hc)) ih
  | declaration hd _ ih => exact hd.passed.append ih
  | comment hr _ ih => exact (Passed.comment hr.closed).append ih

theorem yields : Yields s es := by
  induction h with
  | nil => exact fun r => rfl
  | @blank es c _ s hc _ ih =>
    have hlt : c ≠ '<' := by rintro rfl; cases hc
    exact @Yields.append [c] s [] es (yields_nil (by simpa using Ne.symm hlt)) ih
  | @declaration e es d _ s hd _ ih =>
    exact @Yields.append d s [e] es (fun r => declarations_of_some (hd.declaration? r)) ih
  | @comment es body _ s hr _ ih => exact @Yields.append _ s [] es hr.yields ih

theorem count : bare.count '\n' = s.count '\n' := by
  induction h with
  | nil => rfl
  | blank _ _ ih => simp only [List.count_cons, ih]
  | declaration _ _ ih => simp only [List.count_append, ih]
  | comment _ _ ih =>
    simp only [List.count_append, List.count_replicate_self, ih]
    simp

end AnnotatedText

/-- A text whose block holds comments; before it, the entities that are declared outside of the
comments, the text with the block blanked out, and the text with the line breaks of the comments
only. -/
inductive Annotates : List Entity → List Char → List Char → List Char → Prop
  | mk {es : List Entity} {before w head bare subset p after : List Char} : NoBlock before →
    IsOpening w → HeadingText head → ¬ "<!ENTITY".toList <:+: head →
    AnnotatedText es bare subset → Pad p →
    Annotates es
      (before ++ List.replicate ((w ++ (head ++ '[' :: (bare ++ ']' :: (p ++ ['>'])))).count '\n')
        '\n' ++ after)
      (before ++ ((w ++ (head ++ '[' :: (bare ++ ']' :: (p ++ ['>'])))) ++ after))
      (before ++ ((w ++ (head ++ '[' :: (subset ++ ']' :: (p ++ ['>'])))) ++ after))

/-- Comments in a block declare nothing if no declaration begins in them: the entities of the block
are those that are declared outside of its comments, and the text is expanded like the one without
them. -/
theorem expand_of_annotates {es : List Entity} {body bare text : List Char}
    (h : Annotates es body bare text) (source : String) :
    Declares es body bare ∧ stripBlock source text = .ok (body, es) ∧
      expand source text = expand source bare := by
  have hbare : Declares es body bare := by
    cases h with
    | mk hs hw hh hi ha hp => exact .block hs (.subset hw hh hi ha.subset hp)
  have hstrip : stripBlock source text = .ok (body, es) := by
    cases h with
    | @mk before w head bare subset p after hs hw hh hi ha hp =>
      rw [stripBlock_block hs ⟨w, _, rfl, hw⟩ (blockEnd?_of_passed hw hh hp ha.passed after),
        declarations_of_yields hw hp hi ha.yields]
      simp only [List.count_append, List.count_cons, ha.count]
  refine ⟨hbare, hstrip, ?_⟩
  rw [expand, expand, hstrip, hbare.stripBlock source]

/-- A comment with a quote and what would close the block. -/
theorem expand_of_annotates_quote :
    let text := "<!DOCTYPE P [<!-- don't\n]> --><!ENTITY a \"x\">]><P v=\"&a;\"/>".toList
    let bare := "<!DOCTYPE P [\n<!ENTITY a \"x\">]><P v=\"&a;\"/>".toList
    let es := [("a".toList, "x".toList)]
    Declares es "\n<P v=\"&a;\"/>".toList bare ∧
      stripBlock "test" text = .ok ("\n<P v=\"&a;\"/>".toList, es) ∧
      expand "test" text = expand "test" bare := by
  intro text bare es
  have hname : IsEntityName "a".toList := ⟨'a', [], rfl, by decide, by simp⟩
  have hpad : Pad " ".toList := by unfold Pad; decide
  have hdeclaration : DeclarationText ("a".toList, "x".toList) "<!ENTITY a \"x\">".toList :=
    .mk hname hpad (by decide) hpad (by decide) (.inl rfl) (by decide) .nil
  have hremark : IsRemark " don't\n]> ".toList := ⟨by decide +kernel, silent_of_not_mem (by decide)⟩
  have hhead : HeadingText " P ".toList :=
    .char (by decide) (.char (by decide) (.char (by decide) .nil))
  have h : Annotates es "\n<P v=\"&a;\"/>".toList bare text :=
    .mk (w := "<!DOCTYPE".toList) .nil (beq_self_eq_true _) hhead (by decide)
      (.comment hremark (.declaration hdeclaration .nil)) .nil
  exact expand_of_annotates h "test"

/-- A declaration in a comment counts all the same, though the comment is passed over on the way to
the end of the block. -/
theorem expand_commented_declaration :
    expand "test" "<!DOCTYPE P [<!-- <!ENTITY a \"x\"> -->]><P v=\"&a;\"/>".toList =
      .ok "<P v=\"x\"/>".toList := by
  decide +kernel

end Progression.Markup
