import Progression.Condition.Atom
import Progression.Condition.Connective

/-!
Reading conditions. From the loosest to the tightest: `or`, `and`, `not`, parentheses, then the
literals and the predicates. Every text is a condition; what nothing else claims is unknown.
-/

namespace Progression.Condition

open Progression.Text

/-- The text after a leading `not`, which a blank or a parenthesis must follow. -/
def negated? (s : List Char) : Option (List Char) :=
  match afterWord? "not".toList s with
  | some (c :: rest) =>
    if isAsciiBlank c || c == '(' then some (trimLeft (c :: rest)) else none
  | _ => none

/-- The text up to the parenthesis that closes `depth` open ones, if it is the last character. -/
def closed? (depth : Nat) : List Char → Option (List Char)
  | [] => none
  | c :: cs =>
    if c = '(' then (closed? (depth + 1) cs).map (c :: ·)
    else if c = ')' then
      match depth, cs with
      | 1, [] => some []
      | 1, _ => none
      | d, _ => (closed? (d - 1) cs).map (c :: ·)
    else (closed? depth cs).map (c :: ·)

/-- The text between a first and a last character that are matching parentheses. -/
def group? : List Char → Option (List Char)
  | '(' :: s => closed? 1 s
  | _ => none

theorem length_of_negated? {s rest : List Char} (h : negated? s = some rest) :
    rest.length < s.length := by
  unfold negated? at h
  split at h
  · next c cs hw =>
    have := length_of_afterWord? hw
    split at h
    · cases h
      have := length_trimLeft_le (c :: cs)
      simp only [List.length_cons] at *
      have h3 : "not".toList.length = 3 := rfl
      omega
    · cases h
  · cases h

theorem length_of_closed? {depth : Nat} {s inner : List Char} (h : closed? depth s = some inner) :
    inner.length < s.length := by
  fun_induction closed? depth s generalizing inner with
  | case1 => cases h
  | case2 depth cs ih =>
    obtain ⟨r, hr, rfl⟩ := Option.map_eq_some_iff.1 h
    have := ih hr
    simp only [List.length_cons]; omega
  | case3 => cases h; simp
  | case4 => cases h
  | case5 d cs _ _ _ ih =>
    obtain ⟨r, hr, rfl⟩ := Option.map_eq_some_iff.1 h
    have := ih hr
    simp only [List.length_cons]; omega
  | case6 depth c cs _ _ ih =>
    obtain ⟨r, hr, rfl⟩ := Option.map_eq_some_iff.1 h
    have := ih hr
    simp only [List.length_cons]; omega

theorem length_of_group? {s inner : List Char} (h : group? s = some inner) :
    inner.length < s.length := by
  unfold group? at h
  split at h
  · have := length_of_closed? h
    simp only [List.length_cons]; omega
  · cases h

/-- A text with no connective, negation or group in it. -/
def leaf (s : List Char) : Condition :=
  if sameLetters s "true".toList then .literal true
  else if sameLetters s "false".toList then .literal false
  else match Predicate.read? s with
    | some p => .atom p
    | none => .unknown (String.ofList s)

/-- The condition that a text without escapes spells. -/
def ofText (s : List Char) : Condition :=
  if _h : 1 < (split "or".toList (trim s)).length then
    .any ((split "or".toList (trim s)).attach.map fun ⟨p, _⟩ => ofText p)
  else if _h : 1 < (split "and".toList (trim s)).length then
    .all ((split "and".toList (trim s)).attach.map fun ⟨p, _⟩ => ofText p)
  else
    match _h : negated? (trim s) with
    | some rest => .not (ofText rest)
    | none =>
      match _h : group? (trim s) with
      | some inner => ofText inner
      | none => leaf (trim s)
termination_by s.length
decreasing_by
  all_goals have := length_trim_le s
  · have := length_lt_of_mem_split ‹_› _h; omega
  · have := length_lt_of_mem_split ‹_› _h; omega
  · have := length_of_negated? _h; omega
  · have := length_of_group? _h; omega

/-- The escapes of markup in front of comparisons, undone. -/
def unescape (s : List Char) : List Char :=
  replace "&amp;".toList ['&']
    (replace "&gt;".toList ['>'] (replace "&lt;".toList ['<'] s))

def parse (s : String) : Condition := ofText (trim (unescape s.toList))

/-- Whether the condition that a text spells holds. -/
def evaluate {m : Type → Type} [Monad m] (ask : Oracle m) (s : String) : m Bool :=
  (parse s).eval ask

end Progression.Condition
