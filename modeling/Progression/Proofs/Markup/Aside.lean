import Progression.Proofs.Markup.Tag

/-!
What may stand around the root, and the pieces of it that may also stand in an element and say
nothing there. Such a piece ends with the first mark that is found from its own opening on
(`EndsFirst`), so a mark that overlaps the opening ends it.
-/

namespace Progression.Markup

open Progression.Text Cursor

/-! ### The first mark -/

/-- A text that ends with a mark, while no shorter beginning of it does. -/
def EndsFirst (mark s : List Char) : Prop := mark <:+ s ∧ ∀ t, t <+: s → mark <:+ t → t = s

section Cut

variable {mark s t u v before rest : List Char}

/-- No mark stands before the one that is found. -/
theorem length_le_of_cut? (h : cut? mark s = some (before, rest)) (hs : s = u ++ (mark ++ v)) :
    before.length ≤ u.length := by
  induction u generalizing s before with
  | nil =>
    have ha : after? mark s = some v := after?_eq_some_iff.2 hs
    have hcut : cut? mark s = some ([], v) := by
      cases s with
      | nil => rw [cut?, ha]; rfl
      | cons c s => rw [cut?, ha]
    cases hcut.symm.trans h
    exact Nat.le_refl _
  | cons x u ih =>
    subst hs
    rw [List.cons_append, cut?] at h
    split at h
    · cases h
      exact Nat.zero_le _
    · obtain ⟨⟨b, r⟩, hb, he⟩ := Option.map_eq_some_iff.1 h
      cases he
      exact Nat.succ_le_succ (ih hb rfl)

/-- A mark that stands somewhere is found. -/
theorem exists_cut? (mark u v : List Char) :
    ∃ before rest, cut? mark (u ++ (mark ++ v)) = some (before, rest) := by
  have ha : after? mark (mark ++ v) = some v := after?_eq_some_iff.2 rfl
  induction u with
  | nil =>
    rw [List.nil_append]
    cases hs : mark ++ v with
    | nil => exact ⟨[], v, by rw [cut?, ← hs, ha]; rfl⟩
    | cons c s => exact ⟨[], v, by rw [cut?, ← hs, ha]⟩
  | cons x u ih =>
    obtain ⟨b, r, hcut⟩ := ih
    rw [List.cons_append, cut?, hcut]
    split
    · exact ⟨_, _, rfl⟩
    · exact ⟨_, _, rfl⟩

theorem endsFirst_of_cut? (h : cut? mark s = some (before, rest)) :
    EndsFirst mark (before ++ mark) := by
  refine ⟨List.suffix_append before mark, ?_⟩
  rintro _ ⟨w, hw⟩ ⟨u, rfl⟩
  have hle := length_le_of_cut? (u := u) (v := w ++ rest) h (by
    rw [eq_of_cut? h, ← hw]
    simp)
  have hlen := congrArg List.length hw
  simp only [List.length_append] at hlen
  have hnil : w = [] := List.eq_nil_of_length_eq_zero (by omega)
  rw [← hw, hnil, List.append_nil]

theorem EndsFirst.cut? (h : EndsFirst mark (before ++ mark)) (rest : List Char) :
    cut? mark (before ++ mark ++ rest) = some (before, rest) := by
  obtain ⟨b, r, hcut⟩ := exists_cut? mark before rest
  rw [← List.append_assoc] at hcut
  have heq := eq_of_cut? hcut
  have hle := length_le_of_cut? hcut (List.append_assoc before mark rest)
  have hpre : b ++ mark <+: before ++ mark := by
    refine List.prefix_of_prefix_length_le ⟨r, heq.symm⟩ ⟨rest, rfl⟩ ?_
    simp only [List.length_append]
    omega
  have hb := h.2 _ hpre (List.suffix_append b mark)
  rw [hb] at heq
  rw [hcut, List.append_cancel_right hb, List.append_cancel_left heq]

/-- Before a mark that is the first, none stands. -/
theorem EndsFirst.not_infix (h : EndsFirst mark (before ++ mark)) (hm : mark ≠ []) :
    ¬ mark <:+: before := by
  rintro ⟨u, v, rfl⟩
  have heq := h.2 (u ++ mark) ⟨v ++ mark, by simp⟩ (List.suffix_append u mark)
  have hlen := congrArg List.length heq
  have hpos := List.length_pos_iff.2 hm
  simp only [List.length_append] at hlen
  omega

/-- A text that ends with a mark is passed up to its end. -/
theorem EndsFirst.takeUntil {mark what : String} {c : Cursor} (h : EndsFirst mark.toList s)
    (hc : c.rest = s ++ rest) : ∃ t, c.takeUntil mark what = .ok (t, c.past s rest) := by
  obtain ⟨before, rfl⟩ := h.1
  exact ⟨before, takeUntil_append (hc ▸ h.cut? rest)⟩

/-- What begins a text that goes on begins the text already, if the text has a character that is
not in it. -/
theorem prefix_of_append {x : Char} (h : mark <+: s ++ t) (hs : x ∈ s) (hm : x ∉ mark) :
    mark <+: s := by
  rcases List.prefix_or_prefix_of_prefix h ⟨t, rfl⟩ with h | h
  · exact h
  · exact absurd (h.subset hs) hm

end Cut

/-! ### Pieces that say nothing -/

/-- A comment or a processing instruction. -/
inductive AsideForm : List Char → Prop
  | comment {a : List Char} : "<!--".toList <+: a → EndsFirst "-->".toList a → AsideForm a
  | instruction {a : List Char} : "<?".toList <+: a → EndsFirst "?>".toList a → AsideForm a

theorem opening_comment {s : List Char} (h : "<!--".toList <+: s) : Opening.of s = .comment := by
  obtain ⟨t, rfl⟩ := h
  simp [Opening.of, after?]

theorem opening_instruction {s : List Char} (h : "<?".toList <+: s) :
    Opening.of s = .instruction := by
  obtain ⟨t, rfl⟩ := h
  simp [Opening.of, after?]

/-- What begins at a place is what its first characters say. -/
theorem Opening.mark_prefix (s : List Char) : (Opening.of s = .comment → "<!--".toList <+: s) ∧
    (Opening.of s = .instruction → "<?".toList <+: s) ∧
    (Opening.of s = .data → "<![CDATA[".toList <+: s) ∧
    (Opening.of s = .closing → "</".toList <+: s) := by
  have hmark : ∀ {m : List Char} {s : List Char}, (after? m s).isSome = true →
      '<' :: m <+: '<' :: s := by
    intro m s h
    obtain ⟨t, ht⟩ := Option.isSome_iff_exists.1 h
    exact ⟨t, by rw [after?_eq_some_iff.1 ht]; rfl⟩
  cases s with
  | nil => simp [Opening.of]
  | cons c s =>
    rw [Opening.of]
    split
    · simp
    · next hc =>
      obtain rfl : c = '<' := not_not.1 hc
      repeat' split
      all_goals simp_all

variable {a r s : List Char} {c c' : Cursor}

/-- What begins where a piece that says nothing stands, and that it is passed. -/
theorem AsideForm.passed (h : AsideForm a) (hc : c.rest = a ++ r) :
    (Opening.of c.rest = .comment ∧ ∃ s, c.takeUntil "-->" "comment" = .ok (s, c.past a r)) ∨
      Opening.of c.rest = .instruction ∧
        ∃ s, c.takeUntil "?>" "processing instruction" = .ok (s, c.past a r) := by
  cases h with
  | comment ho he =>
    exact .inl ⟨hc ▸ opening_comment (ho.trans (List.prefix_append a r)), he.takeUntil hc⟩
  | instruction ho he =>
    exact .inr ⟨hc ▸ opening_instruction (ho.trans (List.prefix_append a r)), he.takeUntil hc⟩

theorem AsideForm.head (h : AsideForm a) (r : List Char) :
    ∀ x ∈ (a ++ r).head?, x = '<' := by
  cases h with
  | comment ho | instruction ho =>
    obtain ⟨t, rfl⟩ := ho
    rintro x ⟨⟩
    rfl

/-- No run of text stands where something else begins. -/
theorem takeWhile_of_head (h : ∀ x ∈ s.head?, x = '<') : s.takeWhile (· ≠ '<') = [] := by
  cases s with
  | nil => rfl
  | cons x s => rw [h x rfl]; rfl

/-! ### Around the root -/

/-- What may stand before and after the root: blanks, comments, processing instructions, and
declarations up to the next `>`. -/
inductive AroundForm : List Char → Prop
  | nil : AroundForm []
  | blank {x : Char} {s : List Char} : isAsciiBlank x = true → AroundForm s → AroundForm (x :: s)
  | aside {a s : List Char} : AsideForm a → AroundForm s → AroundForm (a ++ s)
  | declaration {d s : List Char} : "<!".toList <+: d → ¬ "<!--".toList <+: d →
    EndsFirst ">".toList d → AroundForm s → AroundForm (d ++ s)

theorem AroundForm.blanks {p : List Char} (hp : Spaces p) (hs : AroundForm s) :
    AroundForm (p ++ s) := by
  induction p with
  | nil => exact hs
  | cons x p ih =>
    exact .blank (hp x List.mem_cons_self) (ih fun y hy => hp y (List.mem_cons_of_mem x hy))

theorem AroundForm.append {t : List Char} (hs : AroundForm s) (ht : AroundForm t) :
    AroundForm (s ++ t) := by
  induction hs with
  | nil => exact ht
  | blank hx _ ih => exact .blank hx ih
  | aside ha _ ih => rw [List.append_assoc]; exact .aside ha ih
  | declaration ho hn he _ ih => rw [List.append_assoc]; exact .declaration ho hn he ih

theorem skipAside_of_none (h : Opening.aside? c.skipBlanks.rest = none) :
    skipAside c = .ok c.skipBlanks := by
  rw [skipAside]
  split
  · rfl
  · next he => rw [h] at he; cases he

theorem skipAside_of_some {mark what : String}
    (h : Opening.aside? c.skipBlanks.rest = some (mark, what)) (hm : mark.toList ≠ [])
    (ht : c.skipBlanks.takeUntil mark what = .ok (s, c')) : skipAside c = skipAside c' := by
  rw [skipAside]
  split
  · next he => rw [h] at he; cases he
  · next he =>
    rw [h] at he
    cases he
    split
    · next he => rw [ht] at he; cases he
    · next he =>
      rw [ht] at he
      cases he
      rw [dif_neg hm]

theorem skipBlanks_of_head (h : ∀ x ∈ c.rest.head?, isAsciiBlank x = false) :
    c.skipBlanks = c := by
  rw [skipBlanks_append (p := []) rfl (by decide) h, past_nil]

/-- A blank in front is passed over. -/
theorem skipAside_blank {x : Char} (hx : isAsciiBlank x = true) (hc : c.rest = x :: s) :
    skipAside c = skipAside (c.past [x] s) := by
  have hskip : c.skipBlanks = (c.past [x] s).skipBlanks := by
    unfold skipBlanks skipWhile
    rw [past_past, hc, List.takeWhile_cons_of_pos hx, List.dropWhile_cons_of_pos hx]
    rfl
  cases haside : Opening.aside? c.skipBlanks.rest with
  | none => rw [skipAside_of_none haside, skipAside_of_none (hskip ▸ haside), hskip]
  | some p =>
    rw [skipAside, skipAside, hskip]

theorem aside?_comment (h : "<!--".toList <+: s) :
    Opening.aside? s = some ("-->", "comment") := by
  unfold Opening.aside?
  rw [opening_comment h]

theorem aside?_instruction (h : "<?".toList <+: s) :
    Opening.aside? s = some ("?>", "processing instruction") := by
  unfold Opening.aside?
  rw [opening_instruction h]

/-- What begins like a declaration and is no comment is passed over up to its `>`. -/
theorem aside?_declaration (h : "<!".toList <+: s) (hn : ¬ "<!--".toList <+: s) :
    Opening.aside? s = some (">", "declaration") := by
  obtain ⟨t, rfl⟩ := h
  have hc : Opening.of ("<!".toList ++ t) ≠ .comment := fun h => hn ((Opening.mark_prefix _).1 h)
  unfold Opening.aside?
  split
  · next h =>
    obtain ⟨u, hu⟩ := (Opening.mark_prefix _).2.1 h
    simp at hu
  · next h => exact absurd h hc
  · rw [if_pos (by rw [after?_eq_some_iff.2 rfl]; rfl)]

/-- What is passed over is what its first characters say. -/
theorem prefix_of_aside? {mark what : String} (h : Opening.aside? s = some (mark, what)) :
    "<!--".toList <+: s ∧ mark = "-->" ∨ "<?".toList <+: s ∧ mark = "?>" ∨
      ("<!".toList <+: s ∧ ¬ "<!--".toList <+: s) ∧ mark = ">" := by
  unfold Opening.aside? at h
  split at h
  · next ho => cases h; exact .inr (.inl ⟨(Opening.mark_prefix s).2.1 ho, rfl⟩)
  · next ho => cases h; exact .inl ⟨(Opening.mark_prefix s).1 ho, rfl⟩
  · next ho =>
    split at h
    · next hd =>
      cases h
      obtain ⟨t, ht⟩ := Option.isSome_iff_exists.1 hd
      refine .inr (.inr ⟨⟨⟨t, (after?_eq_some_iff.1 ht).symm⟩, fun hc => ?_⟩, rfl⟩)
      exact ho (opening_comment hc)
    · cases h

/-- What begins with a mark that is passed over is passed up to the mark that ends it. -/
theorem skipAside_of_endsFirst {mark what : String} (hc : c.rest = a ++ r)
    (h : Opening.aside? c.rest = some (mark, what)) (he : EndsFirst mark.toList a) :
    skipAside c = skipAside (c.past a r) := by
  have hm : mark.toList ≠ [] ∧ ∀ x ∈ c.rest.head?, isAsciiBlank x = false := by
    rcases prefix_of_aside? h with ⟨⟨t, ht⟩, rfl⟩ | ⟨⟨t, ht⟩, rfl⟩ | ⟨⟨⟨t, ht⟩, -⟩, rfl⟩
    all_goals exact ⟨by decide, by rw [← ht]; rintro x ⟨⟩; rfl⟩
  have hskip := skipBlanks_of_head hm.2
  obtain ⟨u, hu⟩ : ∃ u, c.takeUntil mark what = .ok (u, c.past a r) := he.takeUntil hc
  exact skipAside_of_some (by rw [hskip]; exact h) hm.1 (by rw [hskip]; exact hu)

/-- What stands around the root is passed over, whatever stands behind it. -/
theorem skipAside_over (h : AroundForm s) (hc : c.rest = s ++ r) :
    skipAside c = skipAside (c.past s r) := by
  induction h generalizing c with
  | nil =>
    rw [List.nil_append] at hc
    rw [← hc, past_nil]
  | blank hx _ ih => rw [skipAside_blank hx hc, ih rfl, past_past]; rfl
  | @aside a s ha _ ih =>
    rw [List.append_assoc] at hc
    have hnext : skipAside c = skipAside (c.past a (s ++ r)) := by
      cases ha with
      | comment ho he =>
        have hopen := aside?_comment (ho.trans (List.prefix_append a (s ++ r)))
        exact skipAside_of_endsFirst hc (hc ▸ hopen) he
      | instruction ho he =>
        have hopen := aside?_instruction (ho.trans (List.prefix_append a (s ++ r)))
        exact skipAside_of_endsFirst hc (hc ▸ hopen) he
    rw [hnext, ih rfl, past_past]
  | @declaration d s ho hn he _ ih =>
    rw [List.append_assoc] at hc
    have hgt : '>' ∈ d := he.1.subset (by decide)
    have hopen := aside?_declaration (ho.trans (List.prefix_append d (s ++ r)))
      fun h => hn (prefix_of_append h hgt (by decide))
    rw [skipAside_of_endsFirst hc (hc ▸ hopen) he, ih rfl, past_past]

/-- Passing over what stands around the root stops at what does not. -/
theorem skipAside_append (h : AroundForm s) (hr : Opening.aside? r = none)
    (hb : ∀ x ∈ r.head?, isAsciiBlank x = false) (hc : c.rest = s ++ r) :
    skipAside c = .ok (c.past s r) := by
  have hskip := skipBlanks_of_head (c := c.past s r) hb
  rw [skipAside_over h hc, skipAside_of_none (by rw [hskip]; exact hr), hskip]

end Progression.Markup
