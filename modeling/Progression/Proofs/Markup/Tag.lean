import Mathlib.Data.String.Basic
import Progression.Markup.Reader
import Progression.Proofs.Except
import Progression.Proofs.Markup.Reference

/-!
Opening tags as they are written. The primitives of reading pass a text that stands where they
expect it, and each lemma says where they are then: `Cursor.past` with the text that was passed.
-/

namespace Progression.Markup

open Progression.Text

/-! ### Marks -/

/-- A mark is found behind a text in which it does not stand, if its last character stands nowhere
else in it: then no mark begins in the text and ends behind it. -/
theorem cut?_append {m body : List Char} {x : Char} (hx : x ∉ m) (hb : ¬ m ++ [x] <:+: body)
    (rest : List Char) : cut? (m ++ [x]) (body ++ (m ++ [x] ++ rest)) = some (body, rest) := by
  induction body with
  | nil =>
    have ha : after? (m ++ [x]) (m ++ [x] ++ rest) = some rest := after?_eq_some_iff.2 rfl
    rw [List.nil_append]
    cases hs : m ++ [x] ++ rest with
    | nil => simp at hs
    | cons d s => rw [cut?, ← hs, ha]
  | cons c body ih =>
    have hn : after? (m ++ [x]) (c :: body ++ (m ++ [x] ++ rest)) = none := by
      rw [Option.eq_none_iff_forall_ne_some]
      intro r hr
      rcases List.append_eq_append_iff.1 (after?_eq_some_iff.1 hr).symm with
        ⟨z, hz, -⟩ | ⟨z, hz, hz'⟩
      · exact hb ⟨[], z, by rw [hz]; simp⟩
      · rcases List.eq_nil_or_concat z with rfl | ⟨z, y, rfl⟩
        · exact hb ⟨[], [], by simp [hz]⟩
        · -- What is behind the text begins the mark, so its last character is not the mark's.
          rw [List.concat_eq_append] at hz hz'
          rw [← List.append_assoc] at hz
          obtain ⟨hm, hy⟩ := List.append_inj' hz rfl
          cases hy
          have hp : z ++ [x] <+: m := by
            have hm' : m <+: m ++ [x] ++ rest := ⟨[x] ++ rest, by simp⟩
            refine List.prefix_of_prefix_length_le ⟨r, hz'.symm⟩ hm' ?_
            rw [hm]
            simp
          exact hx (hp.subset (by simp))
    rw [List.cons_append] at hn ⊢
    rw [cut?, hn, ih fun h => hb (h.trans (List.suffix_cons c body).isInfix)]
    rfl

namespace Cursor

variable {c : Cursor}

@[simp] theorem rest_past (s r : List Char) : (c.past s r).rest = r := rfl

@[simp] theorem past_past (s t r r' : List Char) : (c.past s r).past t r' = c.past (s ++ t) r' := by
  simp [past, Nat.add_assoc]

theorem past_nil : c.past [] c.rest = c := by simp [past]

/-- Blanks that may stand where they do not count. -/
def Spaces (p : List Char) : Prop := ∀ c ∈ p, isAsciiBlank c = true

/-- A name of a tag or of an attribute. -/
def IsName (s : List Char) : Prop := s ≠ [] ∧ ∀ c ∈ s, isNamePart c = true

instance (p : List Char) : Decidable (Spaces p) := decidableForallMem p

instance (s : List Char) : Decidable (IsName s) := instDecidableAnd

theorem skipWhile_append {p : Char → Bool} {s r : List Char} (hc : c.rest = s ++ r)
    (hs : ∀ c ∈ s, p c = true) (hr : ∀ c ∈ r.head?, p c = false) :
    c.skipWhile p = c.past s r := by
  have ht : r.takeWhile p = [] ∧ r.dropWhile p = r := by
    cases r with
    | nil => exact ⟨rfl, rfl⟩
    | cons d r => simp [hr d rfl]
  unfold skipWhile
  rw [hc, List.takeWhile_append_of_pos hs, List.dropWhile_append_of_pos hs, ht.1, ht.2,
    List.append_nil]

theorem skipBlanks_append {p r : List Char} (hc : c.rest = p ++ r) (hp : Spaces p)
    (hr : ∀ c ∈ r.head?, isAsciiBlank c = false) : c.skipBlanks = c.past p r :=
  skipWhile_append hc hp hr

theorem name_append {s r : List Char} (hc : c.rest = s ++ r) (hs : IsName s)
    (hr : ∀ c ∈ r.head?, isNamePart c = false) : c.name = .ok (s, c.past s r) := by
  have ht : c.rest.takeWhile isNamePart = s := by
    rw [hc, List.takeWhile_append_of_pos hs.2]
    cases r with
    | nil => simp
    | cons d r => simp [hr d rfl]
  unfold name
  rw [ht, skipWhile_append hc hs.2 hr]
  exact if_neg (by simpa using hs.1)

theorem expect_append (t : String) {r : List Char} (hc : c.rest = t.toList ++ r) :
    c.expect t = .ok (c.past t.toList r) := by
  unfold expect
  rw [after?_eq_some_iff.2 hc]

theorem takeUntil_append {mark what : String} {s r : List Char}
    (hc : cut? mark.toList c.rest = some (s, r)) :
    c.takeUntil mark what = .ok (s, c.past (s ++ mark.toList) r) := by
  unfold takeUntil
  rw [hc]

theorem isNamePart_of_isAsciiBlank {c : Char} (h : isAsciiBlank c = true) :
    isNamePart c = false := by
  simp only [isAsciiBlank, Bool.or_eq_true, beq_iff_eq] at h
  rcases h with (((rfl | rfl) | rfl) | rfl) | rfl <;> rfl

theorem isAsciiBlank_of_isNamePart {c : Char} (h : isNamePart c = true) :
    isAsciiBlank c = false := by
  cases hb : isAsciiBlank c
  · rfl
  · rw [isNamePart_of_isAsciiBlank hb] at h; cases h

/-- What stands first behind blanks, or in them, is no part of a name. -/
theorem Spaces.head {p r : List Char} (hp : Spaces p) (hr : ∀ c ∈ r.head?, isNamePart c = false) :
    ∀ c ∈ (p ++ r).head?, isNamePart c = false := by
  cases p with
  | nil => exact hr
  | cons b p =>
    intro c hc
    cases hc
    exact isNamePart_of_isAsciiBlank (hp b (by simp))

theorem IsName.exists_cons {s : List Char} (h : IsName s) :
    ∃ c cs, s = c :: cs ∧ isNamePart c = true := by
  obtain ⟨c, cs, rfl⟩ := List.exists_cons_of_ne_nil h.1
  exact ⟨c, cs, rfl, h.2 c (by simp)⟩

end Cursor

/-! ### Attributes -/

open Cursor

/-- An attribute as it is written, with blanks before it. Its value stands in quotes of either
kind, and has none of that kind in it. -/
inductive AttributeText : String × String → List Char → Prop
  | mk {key value : String} {g p p' raw : List Char} {q : Char} : Gap g → IsName key.toList →
    Spaces p → Spaces p' → q = '"' ∨ q = '\'' → Encoded ['<', q] value.toList raw →
    AttributeText (key, value) (g ++ (key.toList ++ (p ++ '=' :: (p' ++ q :: (raw ++ [q])))))

/-- Attributes one after the other. -/
inductive AttributesText : List (String × String) → List Char → Prop
  | nil : AttributesText [] []
  | cons {a : String × String} {as : List (String × String)} {s t : List Char} :
    AttributeText a s → AttributesText as t → AttributesText (a :: as) (s ++ t)

/-- An attribute as it may stand in a tag: a name and a value in quotes of either kind, with neither
`<` nor its quote in it. The value is decoded. -/
inductive AttributeForm : String × String → List Char → Prop
  | mk {key p p' raw : List Char} {q : Char} : IsName key → Spaces p → Spaces p' →
    q = '"' ∨ q = '\'' → '<' ∉ raw → q ∉ raw →
    AttributeForm (String.ofList key, String.ofList (decode raw))
      (key ++ (p ++ '=' :: (p' ++ q :: (raw ++ [q]))))

/-- Attributes one after the other, with any blanks before each, also none. -/
inductive AttributesForm : List (String × String) → List Char → Prop
  | nil : AttributesForm [] []
  | cons {a : String × String} {as : List (String × String)} {g s t : List Char} : Spaces g →
    AttributeForm a s → AttributesForm as t → AttributesForm (a :: as) (g ++ (s ++ t))

theorem AttributesText.form {as : List (String × String)} {s : List Char}
    (h : AttributesText as s) : AttributesForm as s := by
  induction h with
  | nil => exact .nil
  | cons ha _ ih =>
    cases ha with
    | @mk key value g p p' raw q hg hk hp hp' hq hv =>
      have hqr : q ∉ raw := hv.not_mem (by simp) (by rcases hq with rfl | rfl <;> rfl)
        (by rcases hq with rfl | rfl <;> decide)
      have hlt : '<' ∉ raw := hv.not_mem (by simp) rfl (by decide)
      have ha := AttributeForm.mk hk hp hp' hq hlt hqr
      rw [hv.decode, String.ofList_toList, String.ofList_toList] at ha
      rw [List.append_assoc]
      exact .cons hg.2 ha ih

theorem AttributeForm.exists_cons {a : String × String} {s : List Char} (h : AttributeForm a s)
    (r : List Char) : ∃ x xs, s ++ r = x :: xs ∧ isNamePart x = true := by
  cases h with
  | mk hk =>
    obtain ⟨x, xs, rfl, hx⟩ := hk.exists_cons
    exact ⟨x, _, rfl, hx⟩

theorem oneAttribute_append {c : Cursor} {key value : String} {s r : List Char}
    (h : AttributeForm (key, value) s) (hc : c.rest = s ++ r) :
    oneAttribute c = .ok (key.toList, value.toList, c.past s r) := by
  cases h with
  | @mk key p p' raw q hk hp hp' hq hlt hqr =>
    have hqb : isAsciiBlank q = false := by rcases hq with rfl | rfl <;> rfl
    have hcut : cut? (String.ofList [q]).toList (raw ++ q :: r) = some (raw, r) := by
      rw [String.toList_ofList, cut?_singleton hqr]
    simp only [List.append_assoc, List.cons_append, List.nil_append] at hc
    unfold oneAttribute
    rw [name_append hc hk (hp.head (by simp; rfl))]
    simp only [bind, Except.bind]
    rw [skipBlanks_append (r := '=' :: (p' ++ q :: (raw ++ q :: r))) rfl hp (by simp; rfl),
      expect_append _ (r := p' ++ q :: (raw ++ q :: r)) rfl]
    simp only [past_past]
    rw [skipBlanks_append (r := q :: (raw ++ q :: r)) rfl hp' (by simpa using hqb)]
    simp only [past_past, rest_past, hq, if_true]
    rw [takeUntil_append hcut]
    simp only [past_past]
    rw [if_neg (by simpa using hlt)]
    simp [pure, Except.pure]

/-- Attributes in the order of their names, none twice. -/
def Ordered (as : List (String × String)) : Prop := as.Pairwise fun a b => a.1 < b.1

theorem insertAttribute?_ordered {key : String} (value : String) {as : List (String × String)}
    (hn : ∀ a ∈ as, a.1 ≠ key) (ho : Ordered as) : ∃ as', insertAttribute? key value as = some as' ∧
      as'.Perm ((key, value) :: as) ∧ Ordered as' := by
  induction as with
  | nil => exact ⟨[(key, value)], rfl, .refl _, List.pairwise_singleton _ _⟩
  | cons a as ih =>
    have ho' := List.pairwise_cons.1 ho
    have hne : a.1 ≠ key := hn a (by simp)
    rw [insertAttribute?, if_neg hne]
    split
    · next hlt =>
      refine ⟨_, rfl, .refl _, List.pairwise_cons.2 ⟨?_, ho⟩⟩
      refine List.forall_mem_cons.2 ⟨hlt, ?_⟩
      exact fun b hb => hlt.trans (ho'.1 b hb)
    · next hge =>
      have hlt : a.1 < key := lt_of_le_of_ne (not_lt.1 hge) hne
      obtain ⟨as', hi, hperm, hord⟩ := ih (fun b hb => hn b (by simp [hb])) ho'.2
      refine ⟨a :: as', by rw [hi]; rfl, (hperm.cons a).trans (.swap _ _ _),
        List.pairwise_cons.2 ⟨?_, hord⟩⟩
      intro b hb
      rcases List.mem_cons.1 (hperm.mem_iff.1 hb) with rfl | hb
      · exact hlt
      · exact ho'.1 b hb

/-- Attributes of different names, read one after the other, are put in order. -/
theorem foldlM_insertAttribute? {as found : List (String × String)} (ho : Ordered found)
    (hn : ((found ++ as).map (·.1)).Nodup) :
    ∃ found', as.foldlM (fun f a => insertAttribute? a.1 a.2 f) found = some found' ∧
      found'.Perm (found ++ as) ∧ Ordered found' := by
  induction as generalizing found with
  | nil => exact ⟨found, rfl, by simp, ho⟩
  | cons a as ih =>
    have hp : (found ++ a :: as).Perm (a :: found ++ as) := List.perm_middle
    have hn' := (hp.map (·.1)).nodup_iff.1 hn
    have hne : ∀ b ∈ found, b.1 ≠ a.1 := by
      intro b hb h
      refine (List.nodup_cons.1 hn').1 (List.mem_map.2 ⟨b, ?_, h⟩)
      exact List.mem_append_left _ hb
    obtain ⟨mid, hi, hm, hom⟩ := insertAttribute?_ordered a.2 hne ho
    obtain ⟨found', hf, hfp, hfo⟩ := ih hom (((hm.append_right as).map (·.1)).nodup_iff.2 hn')
    refine ⟨found', ?_, (hfp.trans (hm.append_right as)).trans hp.symm, hfo⟩
    rw [List.foldlM_cons, hi]
    exact hf

/-- The end of a tag: whether it closes the element, and how that is written. -/
inductive TagEnd : Bool → List Char → Prop
  | closed : TagEnd true ['/', '>']
  | opened : TagEnd false ['>']

theorem TagEnd.exists_cons {b : Bool} {s : List Char} (h : TagEnd b s) (r : List Char) :
    ∃ c cs, s ++ r = c :: cs ∧ isNamePart c = false ∧ isAsciiBlank c = false := by
  cases h with
  | closed => exact ⟨'/', '>' :: r, rfl, rfl, rfl⟩
  | opened => exact ⟨'>', r, rfl, rfl, rfl⟩

theorem attributes_of_oneAttribute {tag : String} {found found' : List (String × String)}
    {c c' : Cursor} {b : Char} {rest key value : List Char} (hr : c.skipBlanks.rest = b :: rest)
    (hb : isNamePart b = true) (ho : oneAttribute c.skipBlanks = .ok (key, value, c'))
    (hi : insertAttribute? (String.ofList key) (String.ofList value) found = some found') :
    attributes tag found c = attributes tag found' c' := by
  have h1 : b ≠ '/' := by rintro rfl; cases hb
  have h2 : b ≠ '>' := by rintro rfl; cases hb
  rw [attributes]
  split
  · next heq => rw [hr] at heq; cases heq
  · next heq =>
    rw [hr] at heq
    cases heq
    rw [if_neg h1, if_neg h2]
    split
    · next heq => rw [ho] at heq; cases heq
    · next heq =>
      rw [ho] at heq
      cases heq
      rw [hi]

theorem attributes_append {tag : String} {as found found' : List (String × String)} {c : Cursor}
    {s p e r : List Char} {b : Bool} (hs : AttributesForm as s) (hp : Spaces p) (he : TagEnd b e)
    (hf : as.foldlM (fun f a => insertAttribute? a.1 a.2 f) found = some found')
    (hc : c.rest = s ++ (p ++ (e ++ r))) :
    attributes tag found c = .ok (found', b, c.past (s ++ (p ++ e)) r) := by
  induction hs generalizing found c with
  | nil =>
    cases hf
    obtain ⟨x, xs, hx, -, hxb⟩ := he.exists_cons r
    have hb := skipBlanks_append (p := p) hc hp (by rw [hx]; simpa using hxb)
    rw [attributes, hb]
    cases he with
    | closed =>
      have he := expect_append (c := c.past p ('/' :: '>' :: r)) "/>" (r := r) rfl
      simp [he]
    | opened => simp
  | @cons a as g s t hg ha _ ih =>
    rw [List.foldlM_cons] at hf
    obtain ⟨mid, hi, hf⟩ := Option.bind_eq_some_iff.1 hf
    obtain ⟨x, xs, hx, hxn⟩ := ha.exists_cons (t ++ (p ++ (e ++ r)))
    simp only [List.append_assoc] at hc
    have hb := skipBlanks_append hc hg (by rw [hx]; simpa using isAsciiBlank_of_isNamePart hxn)
    have ho := oneAttribute_append ha (c := c.skipBlanks) (by rw [hb]; rfl)
    rw [attributes_of_oneAttribute (b := x) (by rw [hb, rest_past, hx]) hxn ho (by simpa using hi),
      ih hf rfl, hb]
    simp

/-! ### Tags -/

/-- The opening tag of an element as it is written, up to its end. Attributes come in any order. -/
inductive HeadText (n : Node) : List Char → Prop
  | mk {as : List (String × String)} {s p : List Char} : IsName n.tag.toList →
    AttributesText as s → as.Perm n.attributes → Ordered n.attributes → Spaces p →
    HeadText n ('<' :: (n.tag.toList ++ (s ++ p)))

/-- An element as its opening tag leaves it. -/
def Node.frame (n : Node) : Frame := { tag := n.tag, attributes := n.attributes, line := n.line }

/-- An opening tag up to its end. The name of the tag is as long as it can be, so the first
attribute stands behind a blank; no name of an attribute stands twice. -/
inductive HeadForm (tag : String) (attributes : List (String × String)) : List Char → Prop
  | mk {as : List (String × String)} {s p : List Char} : IsName tag.toList → AttributesForm as s →
    (∀ c ∈ s.head?, isAsciiBlank c = true) → as.Perm attributes → Ordered attributes → Spaces p →
    HeadForm tag attributes ('<' :: (tag.toList ++ (s ++ p)))

theorem HeadText.form {n : Node} {s : List Char} (h : HeadText n s) :
    HeadForm n.tag n.attributes s := by
  cases h with
  | mk hn hs hperm ho hp =>
    refine .mk hn hs.form ?_ hperm ho hp
    cases hs with
    | nil => simp
    | cons ha _ =>
      cases ha with
      | mk hg =>
        obtain ⟨b, g, rfl⟩ := List.exists_cons_of_ne_nil hg.1
        intro c hc
        cases hc
        exact hg.2 b List.mem_cons_self

theorem HeadForm.isName {tag : String} {as : List (String × String)} {s : List Char}
    (h : HeadForm tag as s) : IsName tag.toList := by
  cases h with
  | mk hn => exact hn

theorem HeadForm.exists_cons {tag : String} {as : List (String × String)} {s : List Char}
    (h : HeadForm tag as s) : ∃ x s', s = '<' :: x :: s' ∧ isNamePart x = true := by
  cases h with
  | mk hn =>
    obtain ⟨x, xs, hx, hxn⟩ := hn.exists_cons
    exact ⟨x, _, by rw [hx]; rfl, hxn⟩

/-- The attributes of an element, read in the order in which they are written. -/
theorem foldlM_attributes {as attributes : List (String × String)} (hp : as.Perm attributes)
    (ho : Ordered attributes) :
    as.foldlM (fun f a => insertAttribute? a.1 a.2 f) [] = some attributes := by
  have hn : (attributes.map (·.1)).Nodup := by
    refine List.pairwise_map.2 (ho.imp ?_)
    exact fun h => ne_of_lt h
  obtain ⟨found, hf, hfp, hfo⟩ := @foldlM_insertAttribute? as [] .nil
    ((hp.map (·.1)).nodup_iff.2 hn)
  have he : found = attributes := by
    refine List.Perm.eq_of_pairwise ?_ hfo ho (hfp.trans hp)
    exact fun a b _ _ h h' => absurd h' (not_lt_of_gt h)
  rw [hf, he]

theorem openingTag_of_headForm {tag : String} {as : List (String × String)} {c : Cursor}
    {s e r : List Char} {b : Bool} (h : HeadForm tag as s) (he : TagEnd b e)
    (hc : c.rest = s ++ (e ++ r)) : openingTag c =
      .ok ({ tag, attributes := as, line := c.line }, b, c.past (s ++ e) r) := by
  cases h with
  | @mk bs s p hn hs hblank hperm ho hp =>
    simp only [List.append_assoc, List.cons_append] at hc
    obtain ⟨x, xs, hx, hxn, -⟩ := he.exists_cons r
    have hr : ∀ c ∈ (s ++ (p ++ (e ++ r))).head?, isNamePart c = false := by
      cases s with
      | nil => exact hp.head (by rw [hx]; simpa using hxn)
      | cons b s =>
        intro c hc
        cases hc
        exact isNamePart_of_isAsciiBlank (hblank b rfl)
    have hf := foldlM_attributes hperm ho
    unfold openingTag
    rw [expect_append "<" hc]
    simp only [bind, Except.bind]
    rw [name_append rfl hn hr]
    simp only [past_past, String.ofList_toList]
    rw [attributes_append hs hp he hf rfl]
    simp [pure, Except.pure]

/-- The parts of an opening tag. -/
theorem openingTag_eq_ok {f : Frame} {closed : Bool} {c c' : Cursor}
    (h : openingTag c = .ok (f, closed, c')) :
    ∃ c₁ tag c₂, c.expect "<" = .ok c₁ ∧ c₁.name = .ok (tag, c₂) ∧
      attributes (String.ofList tag) [] c₂ = .ok (f.attributes, closed, c') ∧
      f = { tag := String.ofList tag, attributes := f.attributes, line := c.line } := by
  obtain ⟨c₁, h1, h⟩ := Except.bind_eq_ok.1 h
  obtain ⟨⟨tag, c₂⟩, h2, h⟩ := Except.bind_eq_ok.1 h
  obtain ⟨⟨as, b, c₃⟩, h3, h⟩ := Except.bind_eq_ok.1 h
  cases h
  exact ⟨c₁, tag, c₂, h1, h2, h3, rfl⟩

theorem Cursor.exists_cons_of_name {c c' : Cursor} {n : List Char} (h : c.name = .ok (n, c')) :
    ∃ x s, c.rest = x :: s ∧ isNamePart x = true := by
  unfold Cursor.name at h
  dsimp only at h
  split at h
  · cases h
  · next hne =>
    cases hc : c.rest with
    | nil => simp [hc] at hne
    | cons x s => exact ⟨x, s, rfl, by by_contra hx; simp [hc, hx] at hne⟩

theorem exists_cons_of_openingTag {c c' : Cursor} {f : Frame} {closed : Bool}
    (h : openingTag c = .ok (f, closed, c')) :
    ∃ x s, c.rest = '<' :: x :: s ∧ isNamePart x = true := by
  obtain ⟨c₁, tag, c₂, h1, h2, -⟩ := openingTag_eq_ok h
  obtain ⟨x, s, hx, hxn⟩ := exists_cons_of_name h2
  unfold expect at h1
  split at h1
  · next hr =>
    cases h1
    rw [rest_past] at hx
    exact ⟨x, s, by rw [after?_eq_some_iff.1 hr, hx]; rfl, hxn⟩
  · cases h1

theorem closingTag_append {tag : String} {c : Cursor} {p r : List Char} (ht : IsName tag.toList)
    (hp : Spaces p) (hc : c.rest = tag.toList ++ (p ++ '>' :: r)) :
    closingTag tag c = .ok (c.past (tag.toList ++ (p ++ ['>'])) r) := by
  unfold closingTag
  rw [name_append hc ht (hp.head (by simp; rfl))]
  simp only [bind, Except.bind, String.ofList_toList, if_true]
  rw [skipBlanks_append (r := '>' :: r) rfl hp (by simp; rfl),
    expect_append ">" (r := r) rfl]
  simp

end Progression.Markup
