import Mathlib.Data.List.TakeWhile
import Progression.Text.Blank
import Progression.Text.Search
import Progression.Text.WordChar

/-!
Texts put together and taken apart again: blanks that are trimmed, words that are found in any
letter case, and marks that are replaced.
-/

namespace Progression.Text

/-- What holds of the characters of a text is decided along the text, not over all characters. -/
instance (priority := high) decidableForallMem {p : Char → Prop} [DecidablePred p]
    (t : List Char) : Decidable (∀ c, c ∈ t → p c) :=
  t.decidableBAll p

/-! ### Blanks -/

/-- Blanks that may stand around the parts of a text. -/
def Pad (p : List Char) : Prop := ∀ c ∈ p, isBlank c = true

/-- Blanks that keep two words apart. -/
def Gap (g : List Char) : Prop := g ≠ [] ∧ ∀ c ∈ g, isAsciiBlank c = true

/-- A text without blanks at its end. -/
def NoTrail (t : List Char) : Prop := ∀ c ∈ t.getLast?, isBlank c = false

/-- A text that begins and ends with something other than a blank. -/
def Edged (t : List Char) : Prop := t ≠ [] ∧ (∀ c ∈ t.head?, isBlank c = false) ∧ NoTrail t

theorem Pad.nil : Pad [] := by simp [Pad]

theorem Gap.pad {g : List Char} (h : Gap g) : Pad g :=
  fun c hc => isBlank_of_isAsciiBlank (h.2 c hc)

theorem NoTrail.tail {c : Char} {t : List Char} (h : NoTrail (c :: t)) : NoTrail t := by
  cases t with
  | nil => simp [NoTrail]
  | cons d t => simpa [NoTrail] using h

theorem NoTrail.ne_nil {c : Char} {t : List Char} (h : NoTrail (c :: t)) (hc : isBlank c = true) :
    t ≠ [] := by
  rintro rfl
  rw [h c rfl] at hc
  cases hc

/-- The blanks inside a text that ends with something else are followed by something else. -/
theorem NoTrail.dropWhile_ne_nil {t : List Char} (h : NoTrail t) (hne : t ≠ []) :
    t.dropWhile isAsciiBlank ≠ [] := by
  intro hd
  have hl := List.dropWhile_eq_nil_iff.1 hd _ (List.getLast_mem hne)
  have := h (t.getLast hne) (List.getLast?_eq_some_getLast hne)
  rw [isBlank_of_isAsciiBlank hl] at this
  cases this

theorem Gap.head {g : List Char} (h : Gap g) (r : List Char) :
    ∀ c ∈ (g ++ r).head?, isBlank c = true := by
  obtain ⟨b, g, rfl⟩ := List.exists_cons_of_ne_nil h.1
  intro c hc
  cases hc
  exact h.pad _ (by simp)

theorem Edged.cons {t : List Char} (h : Edged t) : ∃ c cs, t = c :: cs ∧ isBlank c = false := by
  obtain ⟨hne, hh, -⟩ := h
  cases t with
  | nil => exact absurd rfl hne
  | cons c cs => exact ⟨c, cs, rfl, hh c rfl⟩

theorem Pad.amp {p : List Char} (hp : Pad p) : '&' ∉ p := fun h => by cases hp _ h

/-- What stands first behind blanks, or in them. -/
theorem Pad.head {p r : List Char} {c : Char} {f : Char → Bool} (hp : Pad p)
    (hf : ∀ x, isBlank x = true → f x = false) (hc : f c = false) :
    ∀ x ∈ (p ++ c :: r).head?, f x = false := by
  intro x hx
  cases p with
  | nil => cases hx; exact hc
  | cons d p => cases hx; exact hf _ (hp _ (by simp))

theorem isAsciiBlank_eq_false {c : Char} (h : isBlank c = false) : isAsciiBlank c = false := by
  cases hc : isAsciiBlank c
  · rfl
  · rw [isBlank_of_isAsciiBlank hc] at h; cases h

theorem toLower_eq_self {c : Char} (h : c.toNat < 65 ∨ 90 < c.toNat) : c.toLower = c := by
  unfold Char.toLower
  rw [dif_neg]
  rintro ⟨h1, h2⟩
  have h1 : 65 ≤ c.toNat := h1
  have h2 : c.toNat ≤ 90 := h2
  omega

theorem dropWhile_pad {p t : List Char} (hp : Pad p) (ht : Edged t) (q : List Char) :
    (p ++ (t ++ q)).dropWhile isBlank = t ++ q := by
  obtain ⟨c, cs, rfl, hc⟩ := ht.cons
  rw [List.dropWhile_append_of_pos hp, List.cons_append, List.dropWhile_cons_of_neg (by simp [hc])]

theorem dropWhile_gap {g t : List Char} (hg : Gap g) (ht : Edged t) (q : List Char) :
    (g ++ (t ++ q)).dropWhile isAsciiBlank = t ++ q := by
  obtain ⟨c, cs, rfl, hc⟩ := ht.cons
  rw [List.dropWhile_append_of_pos hg.2, List.cons_append,
    List.dropWhile_cons_of_neg (by simp [isAsciiBlank_eq_false hc])]

theorem Edged.reverse {t : List Char} (h : Edged t) : Edged t.reverse := by
  refine ⟨by simpa using h.1, ?_, ?_⟩
  · rw [List.head?_reverse]; exact h.2.2
  · unfold NoTrail
    rw [List.getLast?_reverse]
    exact h.2.1

theorem trimLeft_pad {p t : List Char} (hp : Pad p) (ht : Edged t) : trimLeft (p ++ t) = t := by
  simpa [trimLeft] using dropWhile_pad hp ht []

theorem trimLeft_append {p r : List Char} (hp : Pad p) (hr : ∀ c ∈ r.head?, isBlank c = false) :
    trimLeft (p ++ r) = r := by
  rw [trimLeft, List.dropWhile_append_of_pos hp]
  cases r with
  | nil => rfl
  | cons c r => rw [List.dropWhile_cons_of_neg (by simp [hr c rfl])]

theorem trim_pad {p t q : List Char} (hp : Pad p) (ht : Edged t) (hq : Pad q) :
    trim (p ++ t ++ q) = t := by
  unfold trim trimLeft trimRight
  have hq' : Pad q.reverse := fun c hc => hq c (by simpa using hc)
  have h := dropWhile_pad hq' ht.reverse []
  rw [List.append_assoc, dropWhile_pad hp ht, List.reverse_append]
  simp only [List.append_nil] at h
  rw [h, List.reverse_reverse]

theorem trim_eq_self {t : List Char} (ht : Edged t) : trim t = t := by
  simpa using trim_pad .nil ht .nil

theorem head_dropWhile (p : Char → Bool) (s : List Char) :
    ∀ x ∈ (s.dropWhile p).head?, p x = false := by
  intro x hx
  have h := List.head?_dropWhile_not p s
  rwa [Option.mem_def.1 hx] at h

/-- What is left when a text is trimmed begins and ends with something other than a blank. -/
theorem edged_trim (t : List Char) : trim t = [] ∨ Edged (trim t) := by
  unfold trim trimLeft trimRight
  generalize hs : t.dropWhile isBlank = s
  generalize hu : s.reverse.dropWhile isBlank = u
  rcases eq_or_ne u [] with rfl | hne
  · exact .inl rfl
  obtain ⟨v, hv⟩ : u <:+ s.reverse := hu ▸ List.dropWhile_suffix isBlank
  refine .inr ⟨by simpa using hne, ?_, ?_⟩
  · -- What is left at the end goes back to the first character.
    have hlast : u.getLast? = (v ++ u).getLast? := by
      rw [List.getLast?_append, List.getLast?_eq_some_getLast hne]
      rfl
    rw [List.head?_reverse, hlast, hv, List.getLast?_reverse, ← hs]
    exact head_dropWhile isBlank t
  · unfold NoTrail
    rw [List.getLast?_reverse, ← hu]
    exact head_dropWhile isBlank s.reverse

theorem trim_trim (t : List Char) : trim (trim t) = trim t := by
  rcases edged_trim t with h | h
  · rw [h]; rfl
  · exact trim_eq_self h

theorem Edged.append_left {u : List Char} (hu : Edged u) (t : List Char) : NoTrail (t ++ u) := by
  have := hu.2.2
  unfold NoTrail at *
  rw [List.getLast?_append, List.getLast?_eq_some_getLast hu.1]
  simpa [List.getLast?_eq_some_getLast hu.1] using this

theorem Edged.append {t u : List Char} (ht : Edged t) (hu : Edged u) (m : List Char) :
    Edged (t ++ (m ++ u)) := by
  obtain ⟨c, cs, rfl, hc⟩ := ht.cons
  refine ⟨by simp, by simpa using hc, ?_⟩
  rw [← List.append_assoc]
  exact hu.append_left _

/-- A text without blanks is edged. -/
theorem edged_of_solid {t : List Char} (hne : t ≠ []) (h : ∀ c ∈ t, isBlank c = false) :
    Edged t := by
  refine ⟨hne, fun c hc => h c (List.mem_of_mem_head? hc), fun c hc => h c ?_⟩
  exact List.mem_of_mem_getLast? hc

/-! ### Words in any letter case -/

theorem sameLetters_cons {c d : Char} {s t : List Char} :
    sameLetters (c :: s) (d :: t) = true ↔ c.toLower = d.toLower ∧ sameLetters s t = true := by
  simp [sameLetters, lower]

/-- Only letters have other cases. -/
theorem eq_of_toLower {c x : Char} (h : c.toLower = x) (hx : x.isAlpha = false) : c = x := by
  by_cases hc : c.toNat < 65 ∨ 90 < c.toNat
  · rwa [toLower_eq_self hc] at h
  · have hall : ∀ n ∈ List.range' 65 26, (Char.ofNat n).toLower.isAlpha = true := by decide
    have := hall c.toNat (List.mem_range'_1.2 (by omega))
    rw [Char.ofNat_toNat, h, hx] at this
    cases this

theorem length_of_sameLetters {s t : List Char} (h : sameLetters s t = true) :
    s.length = t.length := by
  have := congrArg List.length (beq_iff_eq.1 h)
  simpa [lower] using this

theorem isAlpha_iff {c : Char} : c.isAlpha = true ↔
    (c.val ≥ 'A'.val ∧ c.val ≤ 'Z'.val) ∨ (c.val ≥ 'a'.val ∧ c.val ≤ 'z'.val) := by
  show (decide _ || (decide _ && decide _)) = true ↔ _
  simp

/-- What is not a letter stands in a word only if it stands in the word in other cases. -/
theorem mem_of_sameLetters {s t : List Char} {x : Char} (h : sameLetters s t = true) (hx : x ∈ s)
    (hn : x.isAlpha = false) : x ∈ t := by
  have hself : x.toLower = x := by
    unfold Char.toLower
    rw [dif_neg fun hu => ?_]
    rw [isAlpha_iff.2 (.inl hu)] at hn
    cases hn
  have hm : x.toLower ∈ lower t := by
    rw [← beq_iff_eq.1 h]
    exact List.mem_map_of_mem hx
  obtain ⟨y, hy, hyx⟩ := List.mem_map.1 hm
  rwa [← eq_of_toLower (hyx.trans hself) hn]

theorem isAsciiWordChar_of_toLower {c : Char} (h : c.toLower.isAlpha = true) :
    isAsciiWordChar c = true := by
  have ha : c.isAlpha = true := by
    by_cases hu : c.val ≥ 'A'.val ∧ c.val ≤ 'Z'.val
    · exact isAlpha_iff.2 (.inl hu)
    · have : c.toLower = c := by
        unfold Char.toLower
        rw [dif_neg hu]
      rwa [this] at h
  simp [isAsciiWordChar, Char.isAlphanum, ha]

/-- Letters in any case are word characters. -/
theorem isAsciiWordChar_of_letters {s t : List Char} (h : sameLetters s t = true)
    (ht : ∀ c ∈ lower t, c.isAlpha = true) : ∀ c ∈ s, isAsciiWordChar c = true := by
  intro c hc
  have hm : c.toLower ∈ lower t := by
    rw [← beq_iff_eq.1 h]
    exact List.mem_map_of_mem hc
  exact isAsciiWordChar_of_toLower (ht _ hm)

theorem isAsciiWordChar_of_isBlank (c : Char) (h : isBlank c = true) :
    isAsciiWordChar c = false := by
  rw [← Bool.not_eq_true]
  simp only [isBlank, Bool.or_eq_true, Bool.and_eq_true, decide_eq_true_eq, beq_iff_eq] at h
  simp only [isAsciiWordChar, Char.isAlphanum, isAlpha_iff, Char.isDigit, UInt32.le_iff_toNat_le,
    Char.toNat_val, Bool.or_eq_true, Bool.and_eq_true, decide_eq_true_eq, beq_iff_eq,
    ← Char.toNat_inj, Char.reduceToNat]
  omega

theorem isAlpha_of_isBlank {c : Char} (h : isBlank c = true) : c.isAlpha = false := by
  cases ha : c.isAlpha
  · rfl
  · have hw : isAsciiWordChar c = true := by simp [isAsciiWordChar, Char.isAlphanum, ha]
    rw [isAsciiWordChar_of_isBlank c h] at hw
    cases hw

theorem isBlank_of_isAsciiWordChar {c : Char} (h : isAsciiWordChar c = true) :
    isBlank c = false := by
  cases hb : isBlank c
  · rfl
  · rw [isAsciiWordChar_of_isBlank c hb] at h; cases h

theorem afterWord?_append {w word : List Char} (h : sameLetters w word = true) (rest : List Char) :
    afterWord? word (w ++ rest) = some rest := by
  induction word generalizing w with
  | nil => simp [List.length_eq_zero_iff.1 (length_of_sameLetters h), afterWord?]
  | cons x word ih =>
    cases w with
    | nil => cases length_of_sameLetters h
    | cons c w =>
      obtain ⟨hc, hw⟩ := sameLetters_cons.1 h
      rw [List.cons_append, afterWord?, if_pos hc.symm, ih hw]

/-- A word that does not begin a text begins none with other letter cases. -/
theorem afterWord?_eq_none {w w' word r : List Char} (h : sameLetters w w' = true)
    (hn : afterWord? word (w' ++ r) = none) : afterWord? word (w ++ r) = none := by
  induction word generalizing w w' with
  | nil => cases hn
  | cons x word ih =>
    cases w with
    | nil => rwa [List.length_eq_zero_iff.1 (length_of_sameLetters h).symm] at hn
    | cons c w =>
      cases w' with
      | nil => cases length_of_sameLetters h
      | cons c' w' =>
        obtain ⟨hc, hw⟩ := sameLetters_cons.1 h
        rw [List.cons_append, afterWord?] at hn ⊢
        rw [hc]
        split at hn
        · next hx => rw [if_pos hx]; exact ih hw hn
        · next hx => rw [if_neg hx]

theorem eq_of_afterWord? {word s rest : List Char} (h : afterWord? word s = some rest) :
    ∃ w, sameLetters w word = true ∧ s = w ++ rest := by
  induction word generalizing s with
  | nil => exact ⟨[], rfl, by simpa [afterWord?] using h⟩
  | cons x word ih =>
    cases s with
    | nil => cases h
    | cons c s =>
      rw [afterWord?] at h
      split at h
      · next hc =>
        obtain ⟨w, hw, rfl⟩ := ih h
        exact ⟨c :: w, sameLetters_cons.2 ⟨hc.symm, hw⟩, rfl⟩
      · cases h

/-! ### Replacement -/

section Replace

variable {mark other : List Char} (hm : mark ≠ [])

theorem replace_of_cut?_none {s : List Char} (h : cut? mark s = none) :
    replace mark other s = s := by
  rw [replace]
  split
  · rfl
  · next hs => rw [h] at hs; cases hs

include hm

theorem replace_of_cut? {s before rest : List Char} (h : cut? mark s = some (before, rest)) :
    replace mark other s = before ++ other ++ replace mark other rest := by
  rw [replace]
  split
  · next hs => rw [h] at hs; cases hs
  · next hs =>
    rw [h] at hs
    cases hs
    rw [dif_neg (by simpa using hm)]

theorem replace_nil : replace mark other [] = [] := by
  obtain ⟨m, ms, rfl⟩ := List.exists_cons_of_ne_nil hm
  exact replace_of_cut?_none rfl

/-- A mark at the beginning is replaced. -/
theorem replace_append (s : List Char) :
    replace mark other (mark ++ s) = other ++ replace mark other s := by
  have h : cut? mark (mark ++ s) = some ([], s) := by
    have ha : after? mark (mark ++ s) = some s := after?_eq_some_iff.2 rfl
    obtain ⟨m, ms, rfl⟩ := List.exists_cons_of_ne_nil hm
    rw [List.cons_append, cut?, ← List.cons_append, ha]
  rw [replace_of_cut? hm h, List.nil_append]

/-- A character that begins no mark stays. -/
theorem replace_cons {c : Char} {s : List Char} (h : after? mark (c :: s) = none) :
    replace mark other (c :: s) = c :: replace mark other s := by
  cases hc : cut? mark s with
  | none =>
    rw [replace_of_cut?_none hc, replace_of_cut?_none]
    rw [cut?, h, hc]
    rfl
  | some p =>
    obtain ⟨before, rest⟩ := p
    have hcons : cut? mark (c :: s) = some (c :: before, rest) := by
      rw [cut?, h, hc]
      rfl
    rw [replace_of_cut? hm hc, replace_of_cut? hm hcons]
    rfl

/-- A text is made of marks and of characters that begin none. -/
@[elab_as_elim]
theorem replace_induction {motive : List Char → Prop} (nil : motive [])
    (mark_append : ∀ s, motive s → motive (mark ++ s))
    (cons : ∀ c s, after? mark (c :: s) = none → motive s → motive (c :: s)) (s : List Char) :
    motive s := by
  induction hl : s.length using Nat.strong_induction_on generalizing s with
  | _ n ih =>
    subst hl
    cases s with
    | nil => exact nil
    | cons c s =>
      cases ha : after? mark (c :: s) with
      | none => exact cons c s ha (ih s.length (by simp) s rfl)
      | some rest =>
        have hlen := length_of_after? ha
        have hpos := List.length_pos_iff.2 hm
        rw [after?_eq_some_iff.1 ha]
        exact mark_append rest (ih rest.length (by omega) rest rfl)

/-- What stands on the two sides of a character that is not in the mark is replaced by itself. -/
theorem replace_separate {c : Char} (hc : c ∉ mark) (s t : List Char) :
    replace mark other (s ++ c :: t) = replace mark other s ++ c :: replace mark other t := by
  have hskip : ∀ s : List Char, after? mark s = none → after? mark (s ++ c :: t) = none := by
    intro s hs
    cases ha : after? mark (s ++ c :: t) with
    | none => rfl
    | some rest =>
      rcases List.append_eq_append_iff.1 (after?_eq_some_iff.1 ha) with
        ⟨v, rfl, hv⟩ | ⟨v, rfl, -⟩
      · -- The mark ends behind the text, and the character would be in it.
        cases v with
        | nil => simp [after?_eq_some_iff.2 (List.append_nil s).symm] at hs
        | cons d v => cases hv; simp at hc
      · rw [after?_eq_some_iff.2 rfl] at hs
        cases hs
  induction s using replace_induction hm with
  | nil =>
    have hc' : after? mark [] = none := by
      obtain ⟨m, ms, rfl⟩ := List.exists_cons_of_ne_nil hm
      rfl
    rw [List.nil_append, replace_cons hm (hskip [] hc'), replace_nil hm, List.nil_append]
  | mark_append s ih =>
    rw [List.append_assoc, replace_append hm, ih, replace_append hm, List.append_assoc]
  | cons d s hd ih =>
    have hd' : after? mark (d :: (s ++ c :: t)) = none := hskip _ hd
    rw [List.cons_append, replace_cons hm hd', ih, replace_cons hm hd, List.cons_append]

end Replace

end Progression.Text
