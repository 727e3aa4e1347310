import Progression.Text.Blank
import Progression.Text.Search

/-!
Paths as text. A path is divided by slashes; empty parts and points are passed over, except for a
point at the beginning. The text of a path is never changed, only cut or put together.
-/

namespace Progression.Path

open Progression.Text

def parts (p : List Char) : List (List Char) := divide '/' p

def isAbsolute (p : List Char) : Bool := p.head? == some '/'

def join (base p : List Char) : List Char :=
  if isAbsolute p || base.isEmpty then p
  else if base.getLast? == some '/' then base ++ p
  else base ++ '/' :: p

def joined (base p : String) : String := String.ofList (join base.toList p.toList)

/-- How many characters at the beginning of a path are the root or a leading point. -/
def headLength : List Char → Nat
  | '/' :: _ => 1
  | ['.'] => 1
  | '.' :: '/' :: _ => 1
  | _ => 0

/-- A path, from its end, without the last part and the slash before it. -/
def dropPart (r : List Char) : List Char := (r.dropWhile (· ≠ '/')).drop 1

theorem length_dropPart_lt {r : List Char} (h : r ≠ []) : (dropPart r).length < r.length := by
  have h1 := length_dropWhile_le (fun c => decide (c ≠ '/')) r
  have h2 := List.length_pos_iff.2 h
  simp only [dropPart, List.length_drop]
  omega

theorem length_dropPart_le (r : List Char) : (dropPart r).length ≤ r.length := by
  have h1 := length_dropWhile_le (fun c => decide (c ≠ '/')) r
  simp only [dropPart, List.length_drop]
  omega

/-- A path, from its end, without trailing parts that are passed over. -/
def dropIdle (r : List Char) : List Char :=
  if _h : r = [] then []
  else
    let part := r.takeWhile (· ≠ '/')
    if part = [] ∨ part = ['.'] then dropIdle (dropPart r) else r
termination_by r.length
decreasing_by exact length_dropPart_lt _h

theorem length_dropIdle_le (r : List Char) : (dropIdle r).length ≤ r.length := by
  fun_induction dropIdle r with
  | case1 => simp
  | case2 r _ _ _ ih => exact Nat.le_trans ih (length_dropPart_le r)
  | case3 => exact Nat.le_refl _

/-- The path without its last part. The root and the empty path have none. -/
def parent? (p : List Char) : Option (List Char) :=
  let head := p.take (headLength p)
  let body := dropIdle (p.drop (headLength p)).reverse
  if body = [] then (if head = ['.'] then some [] else none)
  else some (head ++ (dropIdle (dropPart body)).reverse)

theorem length_of_parent? {p q : List Char} (h : parent? p = some q) : q.length < p.length := by
  have hl : (p.take (headLength p)).length + (p.drop (headLength p)).length = p.length := by
    rw [← List.length_append, List.take_append_drop]
  have h2 := length_dropIdle_le (p.drop (headLength p)).reverse
  unfold parent? at h
  simp only at h
  split at h
  · split at h
    · next hh =>
      cases h
      rw [hh] at hl
      simp only [List.length_cons, List.length_nil] at *
      omega
    · cases h
  · next hb =>
    cases h
    have h3 := length_dropPart_lt hb
    have h4 := length_dropIdle_le (dropPart (dropIdle (p.drop (headLength p)).reverse))
    simp only [List.length_append, List.length_reverse] at *
    omega

/-- The directory of a file; empty for a bare name. -/
def directory (p : List Char) : List Char := (parent? p).getD []

/-- The path of the directory of a file; a point for a bare name. -/
def folder (p : List Char) : List Char := if directory p = [] then ['.'] else directory p

/-- What tells two paths apart: the root or a leading point, and the parts that count. -/
def key (p : List Char) : List Char × List (List Char) :=
  (p.take (headLength p), (parts (p.drop (headLength p))).filter fun s => s ≠ [] ∧ s ≠ ['.'])

end Progression.Path
