import Progression.Error
import Progression.Text.WordChar
import Progression.Text.Search

/-!
Entities. A document type block declares them; it is blanked out, its line breaks apart, and then
references to declared entities are replaced in passes over the whole text, until a pass changes
nothing or the passes are used up.
-/

namespace Progression.Markup

open Progression.Text

/-- A declared entity: its name and its value. -/
abbrev Entity := List Char × List Char

def passLimit : Nat := 16

def lineAfter (before : List Char) : Nat := 1 + before.count '\n'

/-- A name of an entity at the beginning of a text: a letter or an underscore, then word
characters, points and hyphens. -/
def entityName? : List Char → Option (List Char × List Char)
  | [] => none
  | c :: cs =>
    if isAsciiLetter c || c == '_' then
      let isPart := fun c => isWordChar c || c == '.' || c == '-'
      some (c :: cs.takeWhile isPart, cs.dropWhile isPart)
    else none

theorem length_of_entityName? {s name rest : List Char} (h : entityName? s = some (name, rest)) :
    rest.length < s.length := by
  cases s with
  | nil => cases h
  | cons c cs =>
    simp only [entityName?] at h
    split at h
    · cases h
      have := length_dropWhile_le (fun c => isWordChar c || c == '.' || c == '-') cs
      simp only [List.length_cons]; omega
    · cases h

/-! ### Declarations -/

/-- The text after blanks, at least one. -/
def afterBlanks? (s : List Char) : Option (List Char) :=
  match s with
  | c :: cs => if isBlank c then some (trimLeft cs) else none
  | [] => none

/-- A declaration at the beginning of a text, and what follows it. -/
def declaration? (s : List Char) : Option (Entity × List Char) := do
  let s ← after? "<!ENTITY".toList s
  let s ← afterBlanks? s
  let (name, s) ← entityName? s
  match ← afterBlanks? s with
  | q :: s =>
    if q = '"' ∨ q = '\'' then
      let (value, s) ← cut? [q] s
      match trimLeft s with
      | '>' :: s => some ((name, value), s)
      | _ => none
    else none
  | [] => none

theorem length_of_afterBlanks? {s rest : List Char} (h : afterBlanks? s = some rest) :
    rest.length < s.length := by
  cases s with
  | nil => cases h
  | cons c cs =>
    simp only [afterBlanks?] at h
    split at h
    · cases h
      have := length_trimLeft_le cs
      simp only [List.length_cons]; omega
    · cases h

theorem length_of_declaration? {s rest : List Char} {e : Entity}
    (h : declaration? s = some (e, rest)) : rest.length < s.length := by
  simp only [declaration?, Option.bind_eq_bind, Option.bind_eq_some_iff] at h
  obtain ⟨s1, h1, s2, h2, ⟨name, s3⟩, h3, s4, h4, h⟩ := h
  have := length_of_after? h1
  have := length_of_afterBlanks? h2
  have := length_of_entityName? h3
  have := length_of_afterBlanks? h4
  split at h
  · next q s5 =>
    split at h
    · simp only [Option.bind_eq_some_iff] at h
      obtain ⟨⟨value, s6⟩, h5, h⟩ := h
      have := length_of_cut? h5
      have ht := length_trimLeft_le s6
      split at h
      · next heq =>
        cases h
        rw [heq] at ht
        simp only [List.length_cons] at *
        omega
      · cases h
    · cases h
  · cases h

/-- The declarations in a text, wherever they stand. -/
def declarations : List Char → List Entity
  | [] => []
  | c :: cs =>
    match _h : declaration? (c :: cs) with
    | some (e, rest) => e :: declarations rest
    | none => declarations cs
termination_by s => s.length
decreasing_by
  · exact length_of_declaration? _h
  · simp

/-- The end of the document type block: the text up to the `>` that closes it, and what follows.
Quoted text and, between the brackets, comments do not close it. -/
def blockEnd? (inBrackets : Bool) (quote : Option Char) :
    List Char → Option (List Char × List Char)
  | [] => none
  | c :: cs =>
    let next := fun inBrackets quote => (blockEnd? inBrackets quote cs).map fun (b, r) => (c :: b, r)
    match quote with
    | some q => next inBrackets (if c = q then none else some q)
    | none =>
      if c = '"' ∨ c = '\'' then next inBrackets (some c)
      else if c = '[' ∧ !inBrackets then next true none
      else if c = ']' ∧ inBrackets then next false none
      else if c = '>' ∧ !inBrackets then some ([c], cs)
      else
        match _h : (if inBrackets then after? "<!--".toList (c :: cs) else none) with
        | none => next inBrackets none
        | some s =>
          match _h' : cut? "-->".toList s with
          | none => none
          | some (body, rest) =>
            (blockEnd? inBrackets none rest).map fun (b, r) =>
              ("<!--".toList ++ body ++ "-->".toList ++ b, r)
termination_by s => s.length
decreasing_by
  · simp
  · split at _h
    · have := length_of_after? _h
      have := length_of_cut? _h'
      have : "<!--".toList.length = 4 := rfl
      omega
    · cases _h

/-- The text before the first document type block, and the text from it on. -/
def beforeBlock? : List Char → Option (List Char × List Char)
  | [] => none
  | c :: cs =>
    if (afterWord? "<!DOCTYPE".toList (c :: cs)).isSome then some ([], c :: cs)
    else (beforeBlock? cs).map fun (before, rest) => (c :: before, rest)

/-- The text with its first document type block blanked out, and the entities declared there. -/
def stripBlock (source : String) (s : List Char) : Except Error (List Char × List Entity) :=
  match beforeBlock? s with
  | none => .ok (s, [])
  | some (before, rest) =>
    match blockEnd? false none rest with
    | none => .error (.parse source (lineAfter before) "unterminated DOCTYPE")
    | some (block, after) =>
      .ok (before ++ List.replicate (block.count '\n') '\n' ++ after, declarations block)

/-! ### References -/

/-- The name in a reference that has begun with `&`, and what follows its `;`. -/
def reference? (s : List Char) : Option (List Char × List Char) :=
  match entityName? s with
  | some (name, ';' :: rest) => some (name, rest)
  | _ => none

theorem length_of_reference? {s name rest : List Char} (h : reference? s = some (name, rest)) :
    rest.length < s.length := by
  unfold reference? at h
  split at h
  · next hn =>
    cases h
    have := length_of_entityName? hn
    simp only [List.length_cons] at this
    omega
  · cases h

/-- One pass: every reference to a declared entity replaced by its value. Of several declarations
of a name the first counts. -/
def substitute (entities : List Entity) : List Char → List Char
  | [] => []
  | c :: cs =>
    if c = '&' then
      match _h : reference? cs with
      | some (name, rest) =>
        (match entities.lookup name with
          | some value => value
          | none => c :: name ++ [';']) ++ substitute entities rest
      | none => c :: substitute entities cs
    else c :: substitute entities cs
termination_by s => s.length
decreasing_by
  · have := length_of_reference? _h
    simp only [List.length_cons]; omega
  all_goals simp

/-- Passes until nothing changes, at most a number of them; the answer says whether a pass changed
nothing. -/
def settle (entities : List Entity) : Nat → List Char → List Char × Bool
  | 0, s => (s, false)
  | n + 1, s =>
    let next := substitute entities s
    if next = s then (s, true) else settle entities n next

/-- The names that keep their references for the reader of markup. -/
def isBuiltin (name : List Char) : Bool :=
  ["lt".toList, "gt".toList, "amp".toList, "quot".toList, "apos".toList].contains name

/-- The first reference to a name that is not built in, and the text before it. -/
def firstReference? : List Char → Option (List Char × List Char)
  | [] => none
  | c :: cs =>
    match _h : (if c = '&' then reference? cs else none) with
    | some (name, rest) =>
      if isBuiltin name then
        (firstReference? rest).map fun (before, found) => (c :: name ++ ';' :: before, found)
      else some ([], name)
    | none => (firstReference? cs).map fun (before, found) => (c :: before, found)
termination_by s => s.length
decreasing_by
  · split at _h
    · have := length_of_reference? _h
      simp only [List.length_cons]; omega
    · cases _h
  · simp

def expand (source : String) (s : List Char) : Except Error (List Char) := do
  let (body, entities) ← stripBlock source s
  let (out, settled) := settle entities passLimit body
  match firstReference? out with
  | none => return out
  | some (before, name) =>
    if !settled && (entities.lookup name).isSome then
      throw (.parse source (lineAfter before)
        ("entity '" ++ String.ofList name ++ "' expands recursively"))
    else throw (.undefinedEntity (String.ofList name))

end Progression.Markup
