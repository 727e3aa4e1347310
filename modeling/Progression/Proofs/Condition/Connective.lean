import Progression.Condition.Parser
import Progression.Proofs.Text

/-!
Where connectives are found. A text is `Free` of a keyword when no connective begins outside its
parentheses; such texts are what `split` leaves whole, and they are put together from their parts
without a look at the scan itself.
-/

namespace Progression.Condition

open Progression.Text

/-! ### Parentheses -/

/-- The depth of parentheses after a text, from a depth on; none when it falls below zero. -/
def depth? : Nat → List Char → Option Nat
  | d, [] => some d
  | d, c :: cs =>
    if c = '(' then depth? (d + 1) cs
    else if c = ')' then
      match d with
      | 0 => none
      | d + 1 => depth? d cs
    else depth? d cs

/-- Every parenthesis of a text has its partner in it. -/
def Balanced (t : List Char) : Prop := depth? 0 t = some 0

instance (t : List Char) : Decidable (Balanced t) := inferInstanceAs (Decidable (_ = _))

/-- What the first character of a text does to the depth. -/
theorem depth?_cons {d e : Nat} {c : Char} {t : List Char} (h : depth? d (c :: t) = some e) :
    (c = '(' ∧ depth? (d + 1) t = some e) ∨ (c = ')' ∧ ∃ k, d = k + 1 ∧ depth? k t = some e) ∨
      (c ≠ '(' ∧ c ≠ ')' ∧ depth? d t = some e) := by
  simp only [depth?] at h
  split at h
  · next hc => exact .inl ⟨hc, h⟩
  · next hc =>
    split at h
    · next hc' =>
      cases d with
      | zero => cases h
      | succ k => exact .inr (.inl ⟨hc', k, rfl, h⟩)
    · next hc' => exact .inr (.inr ⟨hc, hc', h⟩)

theorem depth?_of_ne {c : Char} (h : c ≠ '(') (h' : c ≠ ')') (d : Nat) (t : List Char) :
    depth? d (c :: t) = depth? d t := by
  simp only [depth?, h, h', if_false]

theorem depth?_append (d : Nat) (t u : List Char) :
    depth? d (t ++ u) = (depth? d t).bind (depth? · u) := by
  induction t generalizing d with
  | nil => rfl
  | cons c t ih =>
    simp only [List.cons_append, depth?]
    split
    · exact ih _
    · split
      · cases d with
        | zero => rfl
        | succ d => exact ih d
      · exact ih _

theorem depth?_add {d e : Nat} {t : List Char} (h : depth? d t = some e) (k : Nat) :
    depth? (d + k) t = some (e + k) := by
  induction t generalizing d with
  | nil => cases h; rfl
  | cons c t ih =>
    rcases depth?_cons h with ⟨rfl, h⟩ | ⟨rfl, d, rfl, h⟩ | ⟨h1, h2, h⟩
    · have := ih h
      rwa [Nat.add_right_comm] at this
    · rw [Nat.add_right_comm]
      exact ih h
    · rw [depth?_of_ne h1 h2]
      exact ih h

theorem depth?_of_plain {t : List Char} (h : ∀ c ∈ t, c ≠ '(' ∧ c ≠ ')') (d : Nat) :
    depth? d t = some d := by
  induction t with
  | nil => rfl
  | cons c t ih =>
    obtain ⟨h1, h2⟩ := h c (by simp)
    rw [depth?_of_ne h1 h2]
    exact ih fun c hc => h c (by simp [hc])

theorem depth?_pad {p : List Char} (hp : Pad p) (d : Nat) : depth? d p = some d := by
  refine depth?_of_plain (fun c hc => ⟨?_, ?_⟩) d
  · rintro rfl; cases hp _ hc
  · rintro rfl; cases hp _ hc

theorem closed?_of_depth? {d : Nat} {t : List Char} (h : depth? d t = some 0) :
    closed? (d + 1) (t ++ [')']) = some t := by
  induction t generalizing d with
  | nil => cases h; rfl
  | cons c t ih =>
    simp only [List.cons_append, closed?]
    rcases depth?_cons h with ⟨rfl, h⟩ | ⟨rfl, d, rfl, h⟩ | ⟨h1, h2, h⟩
    · rw [if_pos rfl, ih h]
      rfl
    · rw [if_neg (by decide), if_pos rfl]
      simp only
      rw [Nat.add_sub_cancel, ih h]
      rfl
    · rw [if_neg h1, if_neg h2, ih h]
      rfl

theorem group?_of_balanced {t : List Char} (h : Balanced t) :
    group? ('(' :: (t ++ [')'])) = some t := closed?_of_depth? h

theorem foldl_depthAfter {d e : Nat} {t : List Char} (h : depth? d t = some e) :
    t.foldl depthAfter (d : Int) = e := by
  induction t generalizing d with
  | nil => cases h; rfl
  | cons c t ih =>
    rw [List.foldl_cons, depthAfter]
    rcases depth?_cons h with ⟨rfl, h⟩ | ⟨rfl, d, rfl, h⟩ | ⟨h1, h2, h⟩
    · rw [if_pos rfl]
      exact ih h
    · rw [if_neg (by decide), if_pos rfl]
      simpa using ih h
    · rw [if_neg h1, if_neg h2]
      exact ih h

theorem Balanced.foldl {t : List Char} (h : Balanced t) : t.foldl depthAfter 0 = 0 :=
  foldl_depthAfter h

/-! ### Keywords -/

/-- The words that join conditions. -/
def Keyword (word : List Char) : Prop := word = "or".toList ∨ word = "and".toList

/-- No blank is part of a keyword. -/
theorem Keyword.not_isBlank {word w : List Char} (hk : Keyword word)
    (hw : sameLetters w word = true) : ∀ c ∈ w, isBlank c = false := by
  have hl : ∀ c ∈ lower word, c.isAlpha = true := by rcases hk with rfl | rfl <;> decide
  exact fun c hc => isBlank_of_isAsciiWordChar (isAsciiWordChar_of_letters hw hl c hc)

theorem Keyword.ne_nil {word w : List Char} (hk : Keyword word) (hw : sameLetters w word = true) :
    w ≠ [] := by
  rintro rfl
  rcases hk with rfl | rfl
  · cases hw
  · cases hw

/-- A text that does not begin with the word, or goes on with something other than a blank. -/
def Clear (word t : List Char) : Prop :=
  ∀ rest, afterWord? word t = some rest → ∃ c ∈ rest.head?, isAsciiBlank c = false

theorem Clear.of_none {word t : List Char} (h : afterWord? word t = none) : Clear word t := by
  intro rest hr
  rw [h] at hr
  cases hr

/-- No connective begins in a text outside its parentheses, at whose beginning the depth is
given. -/
def Free (word : List Char) : Int → List Char → Prop
  | _, [] => True
  | d, c :: cs =>
    (d = 0 → isAsciiBlank c = true → Clear word (cs.dropWhile isAsciiBlank)) ∧
      Free word (depthAfter d c) cs

section Free

variable {word : List Char} (hk : Keyword word)

include hk

/-- What comes after a word, in front of a blank, does not come from behind the blank. -/
theorem Clear.append {t r : List Char} (h : Clear word t) (ht : t ≠ [])
    (hr : ∀ c ∈ r.head?, isBlank c = true) : Clear word (t ++ r) := by
  intro rest hrest
  obtain ⟨w, hw, he⟩ := eq_of_afterWord? hrest
  rcases List.append_eq_append_iff.1 he with ⟨v, rfl, rfl⟩ | ⟨v, rfl, rfl⟩
  · -- The word goes on behind the text, where a blank stands.
    cases v with
    | nil =>
      obtain ⟨c, hc, -⟩ := h [] (by simpa using afterWord?_append hw [])
      cases hc
    | cons c v =>
      have := hk.not_isBlank hw c (by simp)
      rw [hr c rfl] at this
      cases this
  · obtain ⟨c, hc, hb⟩ := h v (afterWord?_append hw v)
    cases v with
    | nil => cases hc
    | cons d v => exact ⟨c, hc, hb⟩

omit hk in
theorem afterConnective?_of_clear {s : List Char} (h : Clear word (s.dropWhile isAsciiBlank)) :
    afterConnective? word s = none := by
  unfold afterConnective?
  split
  · next b rest hw =>
    obtain ⟨c, hc, hb⟩ := h _ hw
    cases hc
    rw [if_neg (by simp [hb])]
  · rfl

omit hk in
theorem pieces_cons {d : Int} {c : Char} {s : List Char}
    (h : d = 0 → isAsciiBlank c = true → afterConnective? word (c :: s) = none) :
    pieces word d (c :: s) =
      (c :: (pieces word (depthAfter d c) s).1, (pieces word (depthAfter d c) s).2) := by
  rw [pieces]
  split
  · next hs =>
    split at hs
    · next hd => rw [h hd.1 hd.2] at hs; cases hs
    · cases hs
  · rfl

omit hk in
theorem pieces_of_connective {c : Char} {s rest : List Char} (hc : isAsciiBlank c = true)
    (h : afterConnective? word (c :: s) = some rest) :
    pieces word 0 (c :: s) = ([], (pieces word 0 rest).1 :: (pieces word 0 rest).2) := by
  rw [pieces]
  split
  · next hs =>
    rw [if_pos ⟨rfl, hc⟩, h] at hs
    cases hs
    rfl
  · next hs => rw [if_pos ⟨rfl, hc⟩, h] at hs; cases hs

/-- A scan goes through a free text unchanged, and on behind it. -/
theorem pieces_append {d : Int} {t r : List Char} (h : Free word d t) (ht : NoTrail t)
    (hr : ∀ c ∈ r.head?, isBlank c = true) : pieces word d (t ++ r) =
      (t ++ (pieces word (t.foldl depthAfter d) r).1,
        (pieces word (t.foldl depthAfter d) r).2) := by
  induction t generalizing d with
  | nil => rfl
  | cons c t ih =>
    rw [List.cons_append, pieces_cons, ih h.2 ht.tail]
    · rfl
    · intro hd hc
      have hne := ht.ne_nil (isBlank_of_isAsciiBlank hc)
      have hx := ht.tail.dropWhile_ne_nil hne
      refine afterConnective?_of_clear ?_
      rw [List.dropWhile_cons_of_pos hc, List.dropWhile_append, if_neg (by simpa using hx)]
      exact (h.1 hd hc).append hk hx hr

/-- A free text is its only piece. -/
theorem split_of_free {t : List Char} (h : Free word 0 t) (ht : NoTrail t) :
    split word t = [t] := by
  have := pieces_append hk h ht (r := []) (by simp)
  rw [List.append_nil] at this
  rw [split, this]
  simp [pieces]

/-- A free text before a connective is a piece, and what follows is taken apart by itself. -/
theorem split_append {t g w g' u : List Char} (h : Free word 0 t) (ht : NoTrail t)
    (hb : Balanced t) (hg : Gap g) (hw : sameLetters w word = true) (hg' : Gap g') (hu : Edged u) :
    split word (t ++ (g ++ (w ++ (g' ++ u)))) = t :: split word u := by
  have hwe : Edged w := edged_of_solid (hk.ne_nil hw) (hk.not_isBlank hw)
  have hafter : afterConnective? word (g ++ (w ++ (g' ++ u))) = some u := by
    unfold afterConnective?
    rw [dropWhile_gap hg hwe, afterWord?_append hw]
    obtain ⟨c, g', rfl⟩ := List.exists_cons_of_ne_nil hg'.1
    have hd := dropWhile_gap hg' hu []
    simp only [List.append_nil, List.cons_append] at hd
    have hc := hg'.2 c (by simp)
    rw [List.dropWhile_cons_of_pos hc] at hd
    simp only [List.cons_append, hc, if_true, hd]
  obtain ⟨c, g, rfl⟩ := List.exists_cons_of_ne_nil hg.1
  have hc := hg.2 c (by simp)
  rw [split, pieces_append hk h ht (by simpa using isBlank_of_isAsciiBlank hc), hb.foldl,
    List.cons_append, pieces_of_connective hc (by simpa using hafter), List.append_nil, split]

/-! ### Free texts, put together -/

theorem Free.append {d : Int} {t r : List Char} (h : Free word d t) (ht : NoTrail t)
    (hr : ∀ c ∈ r.head?, isBlank c = true) (h' : Free word (t.foldl depthAfter d) r) :
    Free word d (t ++ r) := by
  induction t generalizing d with
  | nil => exact h'
  | cons c t ih =>
    rw [List.cons_append]
    refine ⟨?_, ih h.2 ht.tail h'⟩
    intro hd hc
    have hx := ht.tail.dropWhile_ne_nil (ht.ne_nil (isBlank_of_isAsciiBlank hc))
    rw [List.dropWhile_append, if_neg (by simpa using hx)]
    exact (h.1 hd hc).append hk hx hr

omit hk in
/-- A text that begins with a blank does not begin with a keyword. -/
theorem Keyword.clear_of_isBlank (hk : Keyword word) {c : Char} (hc : isBlank c = true)
    (t : List Char) : Clear word (c :: t) := by
  intro rest hr
  obtain ⟨w, hw, he⟩ := eq_of_afterWord? hr
  obtain ⟨d, w, rfl⟩ := List.exists_cons_of_ne_nil (hk.ne_nil hw)
  cases he
  rw [hk.not_isBlank hw c (by simp)] at hc
  cases hc

omit hk in
theorem depthAfter_of_isBlank {c : Char} (hc : isBlank c = true) (d : Int) :
    depthAfter d c = d := by
  unfold depthAfter
  rw [if_neg (by rintro rfl; cases hc), if_neg (by rintro rfl; cases hc)]

theorem Clear.dropWhile_pad {p u : List Char} (hp : Pad p) (hu : Edged u) (h : Clear word u) :
    Clear word ((p ++ u).dropWhile isAsciiBlank) := by
  induction p with
  | nil =>
    obtain ⟨c, cs, rfl, hc⟩ := hu.cons
    rwa [List.nil_append, List.dropWhile_cons_of_neg (by simp [isAsciiBlank_eq_false hc])]
  | cons c p ih =>
    rw [List.cons_append]
    cases hc : isAsciiBlank c with
    | true =>
      rw [List.dropWhile_cons_of_pos hc]
      exact ih fun c hc => hp c (by simp [hc])
    | false =>
      rw [List.dropWhile_cons_of_neg (by simp [hc])]
      exact hk.clear_of_isBlank (hp c (by simp)) _

theorem Free.pad {d : Int} {p u : List Char} (hp : Pad p) (hu : Edged u) (hc : Clear word u)
    (h : Free word d u) : Free word d (p ++ u) := by
  induction p with
  | nil => exact h
  | cons c p ih =>
    have hp' : Pad p := fun c hc => hp c (by simp [hc])
    refine ⟨fun _ _ => hc.dropWhile_pad hk hp' hu, ?_⟩
    rw [depthAfter_of_isBlank (hp c (by simp))]
    exact ih hp'

omit hk in
theorem Free.solid {d : Int} {s r : List Char} (hs : ∀ c ∈ s, isBlank c = false)
    (h : Free word (s.foldl depthAfter d) r) : Free word d (s ++ r) := by
  induction s generalizing d with
  | nil => exact h
  | cons c s ih =>
    refine ⟨?_, ih (fun c hc => hs c (by simp [hc])) h⟩
    intro _ hc
    rw [isAsciiBlank_eq_false (hs c (by simp))] at hc
    cases hc

omit hk in
theorem Free.of_solid {s : List Char} (hs : ∀ c ∈ s, isBlank c = false) (d : Int) :
    Free word d s := by
  rw [← List.append_nil s]
  exact .solid hs trivial

omit hk in
/-- Between parentheses anything is free. -/
theorem Free.inside {d e k : Nat} {t r : List Char} (ht : depth? d t = some e) (hpos : 0 < k)
    (h : Free word ((e + k : Nat) : Int) r) : Free word ((d + k : Nat) : Int) (t ++ r) := by
  induction t generalizing d with
  | nil => cases ht; exact h
  | cons c t ih =>
    refine ⟨fun hd => by omega, ?_⟩
    unfold depthAfter
    rcases depth?_cons ht with ⟨rfl, ht⟩ | ⟨rfl, d, rfl, ht⟩ | ⟨h1, h2, ht⟩
    · have hk : ((d + k : Nat) : Int) + 1 = ((d + 1 + k : Nat) : Int) := by omega
      rw [if_pos rfl, hk]
      exact ih ht
    · have hk : ((d + 1 + k : Nat) : Int) - 1 = ((d + k : Nat) : Int) := by omega
      rw [if_neg (by decide), if_pos rfl, hk]
      exact ih ht
    · rw [if_neg h1, if_neg h2]
      exact ih ht

omit hk in
theorem Free.group {t : List Char} (h : Balanced t) : Free word 0 ('(' :: (t ++ [')'])) := by
  have hc : Free word ((0 + 1 : Nat) : Int) ([')'] ++ []) := .solid (by decide) trivial
  exact .solid (s := ['(']) (by decide) (Free.inside h Nat.one_pos hc)

end Free

end Progression.Condition
