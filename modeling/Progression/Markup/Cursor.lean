import Progression.Text.Blank
import Progression.Text.Search

/-!
A place in a text of markup: what is still to be read, and the line. The primitives of reading
move a cursor on, or fail at the line where it stands.
-/

namespace Progression.Markup

open Progression.Text

/-- What is wrong with a text of markup. -/
inductive Fault where
  | noRoot
  | afterRoot
  | expected (token : String)
  | unterminated (what : String)
  | noName
  | openTag (tag : String)
  | duplicate (key tag : String)
  | unquoted (key : String)
  | lessThan (key : String)
  | unclosed (tag : String)
  | mismatched (found tag : String)
  deriving DecidableEq, Repr

def Fault.message : Fault → String
  | noRoot => "document has no root element"
  | afterRoot => "unexpected content after root element"
  | expected token => "expected '" ++ token ++ "'"
  | unterminated what => "unterminated " ++ what
  | noName => "expected a name"
  | openTag tag => "unterminated tag <" ++ tag ++ ">"
  | duplicate key tag => "duplicate attribute '" ++ key ++ "' on <" ++ tag ++ ">"
  | unquoted key => "attribute '" ++ key ++ "' value must be quoted"
  | lessThan key => "'<' in value of attribute '" ++ key ++ "'"
  | unclosed tag => "missing </" ++ tag ++ ">"
  | mismatched found tag => "mismatched closing tag </" ++ found ++ ">, expected </" ++ tag ++ ">"

/-- A fault at a line. -/
structure Failure where
  line : Nat
  fault : Fault
  deriving DecidableEq, Repr

/-- A place in a text. -/
structure Cursor where
  rest : List Char
  line : Nat
  deriving Repr

namespace Cursor

def start (s : List Char) : Cursor := ⟨s, 1⟩

variable (c : Cursor)

def fail {α : Type} (fault : Fault) : Except Failure α := .error ⟨c.line, fault⟩

/-- The place after some text that has been passed. -/
def past (passed rest : List Char) : Cursor := ⟨rest, c.line + passed.count '\n'⟩

/-- The place after the characters of a kind. -/
def skipWhile (p : Char → Bool) : Cursor := c.past (c.rest.takeWhile p) (c.rest.dropWhile p)

/-- The place after blanks. -/
def skipBlanks : Cursor := c.skipWhile isAsciiBlank

/-- The place after a token that must stand here. -/
def expect (token : String) : Except Failure Cursor :=
  match after? token.toList c.rest with
  | some rest => .ok (c.past token.toList rest)
  | none => c.fail (.expected token)

/-- The text up to a mark that must come, and the place after the mark. -/
def takeUntil (mark what : String) : Except Failure (List Char × Cursor) :=
  match cut? mark.toList c.rest with
  | some (before, rest) => .ok (before, c.past (before ++ mark.toList) rest)
  | none => c.fail (.unterminated what)

/-- Characters of tags and of names of attributes. -/
def isNamePart (c : Char) : Bool :=
  c.isAlphanum || c == '_' || c == '-' || c == '.' || c == ':'

/-- A name, which must stand here, and the place after it. -/
def name : Except Failure (List Char × Cursor) :=
  let n := c.rest.takeWhile isNamePart
  if n.isEmpty then c.fail .noName else .ok (n, c.skipWhile isNamePart)

/-! ### How far the primitives move -/

variable {c}

theorem length_skipWhile_le (p : Char → Bool) :
    (c.skipWhile p).rest.length ≤ c.rest.length := length_dropWhile_le _ _

theorem length_skipBlanks_le : c.skipBlanks.rest.length ≤ c.rest.length :=
  length_skipWhile_le _

theorem length_of_expect {token : String} {c' : Cursor} (h : c.expect token = .ok c') :
    c.rest.length = token.toList.length + c'.rest.length := by
  unfold expect at h
  split at h
  · next hr => cases h; exact length_of_after? hr
  · cases h

theorem length_of_takeUntil {mark what : String} {before : List Char} {c' : Cursor}
    (h : c.takeUntil mark what = .ok (before, c')) :
    c.rest.length = before.length + mark.toList.length + c'.rest.length := by
  unfold takeUntil at h
  split at h
  · next hr => cases h; exact length_of_cut? hr
  · cases h

theorem length_of_name {n : List Char} {c' : Cursor} (h : c.name = .ok (n, c')) :
    c'.rest.length < c.rest.length := by
  unfold name at h
  simp only at h
  split at h
  · cases h
  · next hn =>
    cases h
    have h1 := congrArg List.length (List.takeWhile_append_dropWhile (p := isNamePart) (l := c.rest))
    simp only [List.length_append] at h1
    have h2 := List.length_pos_iff.2 (fun h => hn (List.isEmpty_iff.2 h))
    simp only [skipWhile, past]
    omega

end Cursor
end Progression.Markup
