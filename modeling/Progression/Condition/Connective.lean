import Progression.Text.Blank
import Progression.Text.Search

/-!
The words that join conditions. A connective is a keyword in any letter case, between blanks, that
stands outside all parentheses; `split` takes a text apart at every one of them.
-/

namespace Progression.Condition

open Progression.Text

/-- What follows a connective, the blanks on both sides of the keyword included, at a text that
begins with the blanks before it. -/
def afterConnective? (word s : List Char) : Option (List Char) :=
  match afterWord? word (s.dropWhile isAsciiBlank) with
  | some (b :: rest) => if isAsciiBlank b then some (rest.dropWhile isAsciiBlank) else none
  | _ => none

theorem length_of_afterConnective? {word s rest : List Char}
    (h : afterConnective? word s = some rest) : rest.length < s.length := by
  unfold afterConnective? at h
  split at h
  · next b tail hw =>
    split at h
    · cases h
      have := length_of_afterWord? hw
      have := length_dropWhile_le isAsciiBlank s
      have := length_dropWhile_le isAsciiBlank tail
      simp only [List.length_cons] at *; omega
    · cases h
  · cases h

/-- The depth of parentheses after a character. -/
def depthAfter (depth : Int) (c : Char) : Int :=
  if c = '(' then depth + 1 else if c = ')' then depth - 1 else depth

/-- The pieces of a text between the connectives that stand at depth 0, the first piece apart. -/
def pieces (word : List Char) (depth : Int) : List Char → List Char × List (List Char)
  | [] => ([], [])
  | c :: cs =>
    match _h : (if depth = 0 ∧ isAsciiBlank c then afterConnective? word (c :: cs) else none) with
    | some rest =>
      let (p, ps) := pieces word 0 rest
      ([], p :: ps)
    | none =>
      let (p, ps) := pieces word (depthAfter depth c) cs
      (c :: p, ps)
termination_by s => s.length
decreasing_by
  · split at _h
    · exact length_of_afterConnective? _h
    · cases _h
  · simp

/-- The pieces of a text between the connectives outside all parentheses. -/
def split (word s : List Char) : List (List Char) :=
  (pieces word 0 s).1 :: (pieces word 0 s).2

theorem length_pieces_le (word : List Char) (depth : Int) (s : List Char) :
    (pieces word depth s).1.length ≤ s.length ∧
      ∀ p ∈ (pieces word depth s).2, (pieces word depth s).1.length + p.length < s.length := by
  fun_induction pieces word depth s with
  | case1 => simp
  | case2 depth c cs rest hr p ps hp ih =>
    simp only [hp] at ih
    split at hr
    · have hl := length_of_afterConnective? hr
      refine ⟨by simp, fun q hq => ?_⟩
      simp only [List.mem_cons] at hq
      rcases hq with rfl | hq
      · simp only [List.length_nil]; omega
      · have := ih.2 q hq
        simp only [List.length_nil]; omega
    · cases hr
  | case3 depth c cs _ p ps hp ih =>
    simp only [hp] at ih
    refine ⟨by simpa using ih.1, fun q hq => ?_⟩
    have := ih.2 q hq
    simp only [List.length_cons]; omega

/-- A text that is taken apart at all has only shorter pieces. -/
theorem length_lt_of_mem_split {word s p : List Char} (h : p ∈ split word s)
    (h1 : 1 < (split word s).length) : p.length < s.length := by
  obtain ⟨-, h2⟩ := length_pieces_le word 0 s
  simp only [split, List.length_cons] at h1
  obtain ⟨q, qs, hq⟩ := List.exists_cons_of_length_pos (l := (pieces word 0 s).2) (by omega)
  simp only [split, List.mem_cons] at h
  rcases h with rfl | h
  · have := h2 q (by simp [hq]); omega
  · have := h2 p h; omega

end Progression.Condition
