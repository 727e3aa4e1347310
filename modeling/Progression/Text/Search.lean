/-!
Searching in lists of characters: literal beginnings, the first place where a mark stands, the
parts between separators, replacement of every occurrence, and comparison that ignores the case of ASCII letters.
-/

namespace Progression.Text

/-- What follows `mark` in a text that begins with it. -/
def after? : (mark s : List Char) → Option (List Char)
  | [], s => some s
  | _ :: _, [] => none
  | m :: ms, c :: cs => if m = c then after? ms cs else none

/-- The text before the first occurrence of `mark`, and the text after it. -/
def cut? (mark : List Char) : List Char → Option (List Char × List Char)
  | [] => (after? mark []).map ([], ·)
  | c :: cs =>
    match after? mark (c :: cs) with
    | some rest => some ([], rest)
    | none => (cut? mark cs).map fun (before, rest) => (c :: before, rest)

/-- The parts of a text between separators: one more than there are separators. -/
def divide (separator : Char) : List Char → List (List Char)
  | [] => [[]]
  | c :: cs =>
    if c = separator then [] :: divide separator cs
    else match divide separator cs with
      | part :: parts => (c :: part) :: parts
      | [] => [[c]]

/-- Whether `mark` stands somewhere in the text. -/
def contains (mark s : List Char) : Bool := (cut? mark s).isSome

theorem after?_eq_some_iff {mark s rest : List Char} :
    after? mark s = some rest ↔ s = mark ++ rest := by
  induction mark generalizing s with
  | nil => simp [after?, eq_comm]
  | cons m ms ih =>
    cases s with
    | nil => simp [after?]
    | cons c cs =>
      by_cases h : m = c
      · simp [after?, h, ih]
      · simp [after?, h, Ne.symm h]

theorem length_of_after? {mark s rest : List Char} (h : after? mark s = some rest) :
    s.length = mark.length + rest.length := by
  rw [after?_eq_some_iff.1 h, List.length_append]

theorem eq_of_cut? {mark s before rest : List Char} (h : cut? mark s = some (before, rest)) :
    s = before ++ mark ++ rest := by
  induction s generalizing before with
  | nil =>
    obtain ⟨r, hr, he⟩ := Option.map_eq_some_iff.1 h
    have := after?_eq_some_iff.1 hr
    simp_all
  | cons c cs ih =>
    rw [cut?] at h
    split at h
    · next r hr =>
      have := after?_eq_some_iff.1 hr
      simp_all
    · obtain ⟨⟨b, r⟩, hr, he⟩ := Option.map_eq_some_iff.1 h
      simp only [Prod.mk.injEq] at he
      obtain ⟨rfl, rfl⟩ := he
      simp [ih hr]

theorem length_of_cut? {mark s before rest : List Char} (h : cut? mark s = some (before, rest)) :
    s.length = before.length + mark.length + rest.length := by
  rw [eq_of_cut? h]; simp only [List.length_append]

/-- The text with every occurrence of `mark`, from the left, replaced by `other`. An empty mark
replaces nothing. -/
def replace (mark other s : List Char) : List Char :=
  match _h : cut? mark s with
  | none => s
  | some (before, rest) =>
    if _hm : mark.length = 0 then s else before ++ other ++ replace mark other rest
termination_by s.length
decreasing_by have := length_of_cut? _h; omega

/-- The lower-case form of the ASCII letters of a text. -/
def lower (s : List Char) : List Char := s.map Char.toLower

/-- Equality up to the case of ASCII letters. -/
def sameLetters (a b : List Char) : Bool := lower a == lower b

/-- Equality of strings up to the case of ASCII letters. -/
def sameWord (a b : String) : Bool := sameLetters a.toList b.toList

def isAsciiLetter (c : Char) : Bool := c.isAlpha

def isAsciiDigit (c : Char) : Bool := c.isDigit

/-- What follows a word, in any case of its ASCII letters, at the beginning of a text. -/
def afterWord? : (word s : List Char) → Option (List Char)
  | [], s => some s
  | _ :: _, [] => none
  | w :: ws, c :: cs => if w.toLower = c.toLower then afterWord? ws cs else none

theorem length_of_afterWord? {word s rest : List Char} (h : afterWord? word s = some rest) :
    s.length = word.length + rest.length := by
  induction word generalizing s with
  | nil => simp [afterWord?] at h; simp [h]
  | cons w ws ih =>
    cases s with
    | nil => simp [afterWord?] at h
    | cons c cs =>
      by_cases hc : w.toLower = c.toLower
      · simp only [afterWord?, hc, if_true] at h
        have := ih h
        simp only [List.length_cons]; omega
      · simp [afterWord?, hc] at h

/-- The character of a code point, unless it is half of a pair or out of range. -/
def ofCodePoint? (n : Nat) : Option Char :=
  if h : n.isValidChar then some (Char.ofNatAux n h) else none

end Progression.Text
