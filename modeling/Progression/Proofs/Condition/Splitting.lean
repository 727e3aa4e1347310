import Progression.Proofs.Condition.Connective

/-!
What `split` makes of a text. The pieces and the connectives between them are the text again, and
each connective stands outside all parentheses of the text (`Separated`); no piece has a connective
left in it. Both go along the recursion of `pieces`: the first by keeping the text that was passed,
the second because a connective in a beginning of a text is one in the text
(`exists_afterConnective?`).
-/

namespace Progression.Condition

open Progression.Text

variable {word s t p rest : List Char} {d : Int}

/-- A keyword in any letter case with blanks on both sides of it. -/
inductive IsConnective (word : List Char) : List Char → Prop
  | mk {g w g' : List Char} : Gap g → sameLetters w word = true → Gap g' →
    IsConnective word (g ++ (w ++ g'))

/-- The text before, a text as its pieces, and that text: between two pieces stands a connective, at
depth 0 of the whole. -/
inductive Separated (word : List Char) : List Char → List (List Char) → List Char → Prop
  | last (before p : List Char) : Separated word before [p] p
  | more {before p g t : List Char} {ps : List (List Char)} :
    (before ++ p).foldl depthAfter 0 = 0 → IsConnective word g →
    Separated word (before ++ (p ++ g)) ps t → Separated word before (p :: ps) (p ++ (g ++ t))

/-! ### Connectives -/

/-- What is found at a connective is the text behind it. -/
theorem isConnective_of_afterConnective? {c : Char} {cs : List Char} (hc : isAsciiBlank c = true)
    (h : afterConnective? word (c :: cs) = some rest) :
    ∃ g, IsConnective word g ∧ c :: cs = g ++ rest := by
  unfold afterConnective? at h
  split at h
  · next b tail hw =>
    split at h
    · next hb =>
      obtain rfl : tail.dropWhile isAsciiBlank = rest := Option.some.inj h
      obtain ⟨w, hw, hs⟩ := eq_of_afterWord? hw
      have hg : Gap ((c :: cs).takeWhile isAsciiBlank) :=
        ⟨by simp [hc], fun x hx => List.mem_takeWhile_imp hx⟩
      have hg' : Gap (b :: tail.takeWhile isAsciiBlank) := by
        refine ⟨by simp, List.forall_mem_cons.2 ⟨hb, fun x hx => List.mem_takeWhile_imp hx⟩⟩
      refine ⟨_, .mk hg hw hg', ?_⟩
      calc c :: cs
          = (c :: cs).takeWhile isAsciiBlank ++ (w ++ b :: tail) := by
            rw [← hs, List.takeWhile_append_dropWhile]
        _ = _ := by simp [List.takeWhile_append_dropWhile]
    · cases h
  · cases h

/-- A word at the beginning of a text is at the beginning of a longer one. -/
theorem afterWord?_append_right (h : afterWord? word s = some rest) (t : List Char) :
    afterWord? word (s ++ t) = some (rest ++ t) := by
  obtain ⟨w, hw, rfl⟩ := eq_of_afterWord? h
  rw [List.append_assoc, afterWord?_append hw]

/-- A connective in a beginning of a text is one in the text. -/
theorem exists_afterConnective? (h : afterConnective? word s = some rest) (t : List Char) :
    ∃ r, afterConnective? word (s ++ t) = some r := by
  unfold afterConnective? at h
  split at h
  · next b tail hw =>
    split at h
    · next hb =>
      have hne : s.dropWhile isAsciiBlank ≠ [] := by
        intro hnil
        have := length_of_afterWord? hw
        rw [hnil] at this
        simp at this
      have hdrop : (s ++ t).dropWhile isAsciiBlank = s.dropWhile isAsciiBlank ++ t := by
        rw [List.dropWhile_append, if_neg (by simpa using hne)]
      refine ⟨(tail ++ t).dropWhile isAsciiBlank, ?_⟩
      unfold afterConnective?
      rw [hdrop, afterWord?_append_right hw]
      exact if_pos hb
    · cases h
  · cases h

/-- Every connective is found, whatever stands behind it. -/
theorem IsConnective.exists_afterConnective? {g : List Char} (h : IsConnective word g)
    (hne : word ≠ []) (hword : ∀ c ∈ word, c.isAlpha = true) (t : List Char) :
    ∃ r, afterConnective? word (g ++ t) = some r := by
  cases h with
  | @mk g w g' hg hw hg' =>
    have hsolid : ∀ c ∈ w, isBlank c = false := by
      intro c hc
      cases hb : isBlank c
      · rfl
      · have hn := isAlpha_of_isBlank hb
        rw [hword c (mem_of_sameLetters hw hc hn)] at hn
        cases hn
    have hwne : w ≠ [] := by
      rintro rfl
      exact hne (List.length_eq_zero_iff.1 (length_of_sameLetters hw).symm)
    obtain ⟨b, g', rfl⟩ := List.exists_cons_of_ne_nil hg'.1
    have hb : isAsciiBlank b = true := hg'.2 b (by simp)
    refine ⟨(g' ++ t).dropWhile isAsciiBlank, ?_⟩
    unfold afterConnective?
    rw [List.append_assoc, List.append_assoc, dropWhile_gap hg (edged_of_solid hwne hsolid),
      afterWord?_append hw]
    exact if_pos hb

/-- Outside of parentheses, the depth is the same behind a connective. -/
theorem IsConnective.depth {g : List Char} (h : IsConnective word g)
    (hword : ∀ c ∈ word, c.isAlpha = true) : g.foldl depthAfter 0 = 0 := by
  have hgap : ∀ t, Gap t → t.foldl depthAfter 0 = 0 :=
    fun t ht => foldl_depthAfter (d := 0) (depth?_pad ht.pad 0)
  cases h with
  | @mk g w g' hg hw hg' =>
    have hnot : ∀ x : Char, x.isAlpha = false → x ∉ w := by
      intro x hx hm
      rw [hword x (mem_of_sameLetters hw hm hx)] at hx
      cases hx
    have hplain : ∀ c ∈ w, c ≠ '(' ∧ c ≠ ')' := fun c hc =>
      ⟨fun h => hnot '(' rfl (h ▸ hc), fun h => hnot ')' rfl (h ▸ hc)⟩
    have hw' : w.foldl depthAfter 0 = 0 := foldl_depthAfter (d := 0) (depth?_of_plain hplain 0)
    rw [List.foldl_append, hgap g hg, List.foldl_append, hw', hgap g' hg']

theorem IsConnective.exists_cons {g : List Char} (h : IsConnective word g) (t : List Char) :
    ∃ c s, isAsciiBlank c = true ∧ g ++ t = c :: s := by
  cases h with
  | mk hg =>
    obtain ⟨c, g, rfl⟩ := List.exists_cons_of_ne_nil hg.1
    exact ⟨c, _, hg.2 c (by simp), rfl⟩

/-! ### Pieces -/

/-- The first piece is a beginning of the text. -/
theorem pieces_fst_prefix (word : List Char) (d : Int) (s : List Char) :
    (pieces word d s).1 <+: s := by
  fun_induction pieces word d s with
  | case1 => exact List.prefix_refl _
  | case2 => exact List.nil_prefix
  | case3 d c cs _ p ps hp ih =>
    rw [hp] at ih
    exact List.cons_prefix_cons.2 ⟨rfl, ih⟩

/-- The pieces of a text, with what was passed before it at a depth. -/
theorem separated_pieces (hword : ∀ c ∈ word, c.isAlpha = true) (before p : List Char)
    (hd : (before ++ p).foldl depthAfter 0 = d) :
    Separated word before ((p ++ (pieces word d s).1) :: (pieces word d s).2) (p ++ s) := by
  fun_induction pieces word d s generalizing before p with
  | case1 =>
    rw [List.append_nil]
    exact .last before p
  | case2 d c cs rest hr q qs hq ih =>
    -- A connective ends the piece; what is passed from now on begins behind it.
    split at hr
    · next hblank =>
      obtain ⟨rfl, hc⟩ := hblank
      obtain ⟨g, hg, hs⟩ := isConnective_of_afterConnective? hc hr
      rw [hq] at ih
      have hdepth : (before ++ (p ++ g) ++ []).foldl depthAfter 0 = 0 := by
        rw [List.append_nil, ← List.append_assoc, List.foldl_append, hd, hg.depth hword]
      have := ih (before ++ (p ++ g)) [] hdepth
      rw [List.append_nil, hs]
      exact .more hd hg this
    · cases hr
  | case3 d c cs _ q qs hq ih =>
    rw [hq] at ih
    have hdepth : (before ++ (p ++ [c])).foldl depthAfter 0 = depthAfter d c := by
      rw [← List.append_assoc, List.foldl_append, hd]
      rfl
    have := ih before (p ++ [c]) hdepth
    simpa using this

/-- In each piece of a text no connective is found. -/
theorem pieces_of_piece (word : List Char) (d : Int) (s : List Char) :
    pieces word d (pieces word d s).1 = ((pieces word d s).1, []) ∧
      ∀ p ∈ (pieces word d s).2, pieces word 0 p = (p, []) := by
  fun_induction pieces word d s with
  | case1 => simp [pieces]
  | case2 d c cs rest hr q qs hq ih =>
    rw [hq] at ih
    exact ⟨by rw [pieces], List.forall_mem_cons.2 ih⟩
  | case3 d c cs hnone q qs hq ih =>
    have hpre := pieces_fst_prefix word (depthAfter d c) cs
    rw [hq] at ih hpre
    obtain ⟨t, rfl⟩ : q <+: cs := hpre
    refine ⟨?_, ih.2⟩
    have hstays : d = 0 → isAsciiBlank c = true → afterConnective? word (c :: q) = none := by
      intro hd hc
      rw [dif_pos ⟨hd, hc⟩] at hnone
      rw [Option.eq_none_iff_forall_ne_some]
      intro r hr
      obtain ⟨r', hr'⟩ := exists_afterConnective? hr t
      cases hnone.symm.trans hr'
    rw [pieces_cons hstays, ih.1]

/-- Where a text is its only piece, no connective stands in it outside of parentheses. -/
theorem depth_ne_zero_of_pieces {a g b : List Char} (h : pieces word d t = (t, []))
    (ht : t = a ++ (g ++ b)) (hg : IsConnective word g) (hne : word ≠ [])
    (hword : ∀ c ∈ word, c.isAlpha = true) : a.foldl depthAfter d ≠ 0 := by
  induction a generalizing d t with
  | nil =>
    rintro rfl
    obtain ⟨r, hr⟩ := hg.exists_afterConnective? hne hword b
    obtain ⟨c, s, hc, hs⟩ := hg.exists_cons b
    rw [List.nil_append, hs] at ht
    rw [hs] at hr
    rw [ht, pieces_of_connective hc hr] at h
    cases congrArg Prod.snd h
  | cons x a ih =>
    rw [List.foldl_cons]
    rw [ht, List.cons_append] at h
    by_cases hx : d = 0 → isAsciiBlank x = true → afterConnective? word (x :: (a ++ (g ++ b))) = none
    · rw [pieces_cons hx] at h
      obtain ⟨hfst, hsnd⟩ := Prod.mk.inj h
      exact ih (Prod.ext (List.cons.inj hfst).2 hsnd) rfl
    · -- A connective at the first character would end the first piece.
      obtain ⟨rfl, hfound⟩ := Classical.not_imp.1 hx
      obtain ⟨hblank, hsome⟩ := Classical.not_imp.1 hfound
      obtain ⟨r, hr⟩ := Option.ne_none_iff_exists'.1 hsome
      rw [pieces_of_connective hblank hr] at h
      cases congrArg Prod.fst h

theorem pieces_of_mem_split (hp : p ∈ split word s) : pieces word 0 p = (p, []) := by
  obtain ⟨hfst, hsnd⟩ := pieces_of_piece word 0 s
  rcases List.mem_cons.1 hp with rfl | hp
  · exact hfst
  · exact hsnd p hp

/-- **A text is taken apart at its connectives, and at all of them.** The pieces and the connectives
between them, each outside of all parentheses, are the text; a piece is its own only piece, and no
connective stands in it outside of its parentheses. -/
theorem split_separates (hne : word ≠ []) (hword : ∀ c ∈ word, c.isAlpha = true)
    (s : List Char) :
    Separated word [] (split word s) s ∧
      ∀ p ∈ split word s, split word p = [p] ∧
        ∀ a g b, p = a ++ (g ++ b) → IsConnective word g → a.foldl depthAfter 0 ≠ 0 := by
  refine ⟨separated_pieces hword [] [] rfl, fun p hp => ⟨?_, fun a g b hpg hg => ?_⟩⟩
  · rw [split, pieces_of_mem_split hp]
  · exact depth_ne_zero_of_pieces (pieces_of_mem_split hp) hpg hg hne hword

/-- Keywords next to each other, one in parentheses, and one behind a parenthesis too many. -/
theorem split_separates_neighbours :
    let word := "or".toList
    let s := " or x or or (y or z) OR\tw ) or v".toList
    let p := "or (y or z)".toList
    (word ≠ [] ∧ ∀ c ∈ word, c.isAlpha = true) ∧
      split word s = ["".toList, "x".toList, p, "w ) or v".toList] ∧
      Separated word [] (split word s) s ∧ split word p = [p] ∧
        ∀ a g b, p = a ++ (g ++ b) → IsConnective word g → a.foldl depthAfter 0 ≠ 0 := by
  intro word s p
  have hne : word ≠ [] := by decide
  have hword : ∀ c ∈ word, c.isAlpha = true := by decide
  have hs : split word s = ["".toList, "x".toList, p, "w ) or v".toList] := by decide +kernel
  obtain ⟨hsep, hpieces⟩ := split_separates hne hword s
  exact ⟨⟨hne, hword⟩, hs, hsep, hpieces p (by rw [hs]; simp)⟩

end Progression.Condition
