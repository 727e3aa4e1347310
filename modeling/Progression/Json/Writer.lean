import Progression.Document
import Progression.Json.Basic

/-!
JSON text: the compact form, without blanks, and the form for people, one item a line, two blanks
for each level.
-/

namespace Progression.Json

/-- A number of single precision; null if it is not finite. -/
def ofSingle (v : Single) : Json :=
  let bits := v.bits.toNat
  if Number.single.magnitude bits < Number.single.infinity then
    number (Number.single.scientific Document.spread bits)
  else null

instance : Document Json where
  number := ofNat
  single := ofSingle
  text := string
  nothing := null
  list := array
  record := object

def hexDigit (n : Nat) : Char := if n < 10 then Char.ofNat (48 + n) else Char.ofNat (87 + n)

/-- A character in a string. Quotes, backslashes and control characters are escaped, all others
stand for themselves. -/
def escape (c : Char) : List Char :=
  if c = '"' then ['\\', '"']
  else if c = '\\' then ['\\', '\\']
  else if c = '\x08' then ['\\', 'b']
  else if c = '\x0c' then ['\\', 'f']
  else if c = '\n' then ['\\', 'n']
  else if c = '\r' then ['\\', 'r']
  else if c = '\t' then ['\\', 't']
  else if c.toNat < 0x20 then ['\\', 'u', '0', '0', hexDigit (c.toNat / 16), hexDigit (c.toNat % 16)]
  else [c]

def quote (s : String) : List Char := '"' :: s.toList.flatMap escape ++ ['"']

mutual

def compact : Json → List Char
  | null => "null".toList
  | bool true => "true".toList
  | bool false => "false".toList
  | number s => s.toList
  | string s => quote s
  | array items => '[' :: compactItems items ++ [']']
  | object fields => '\x7b' :: compactFields fields ++ ['\x7d']

def compactItems : List Json → List Char
  | [] => []
  | [v] => compact v
  | v :: vs => compact v ++ ',' :: compactItems vs

def compactFields : List (String × Json) → List Char
  | [] => []
  | [(k, v)] => quote k ++ ':' :: compact v
  | (k, v) :: vs => quote k ++ ':' :: compact v ++ ',' :: compactFields vs

end

/-- The beginning of a line at a level. -/
def newline (level : Nat) : List Char := '\n' :: List.replicate (2 * level) ' '

mutual

/-- The text of a value for people, at a level. -/
def prettyAt (level : Nat) : Json → List Char
  | array [] => ['[', ']']
  | array items => '[' :: prettyItems (level + 1) items ++ newline level ++ [']']
  | object [] => ['\x7b', '\x7d']
  | object fields => '\x7b' :: prettyFields (level + 1) fields ++ newline level ++ ['\x7d']
  | null => "null".toList
  | bool true => "true".toList
  | bool false => "false".toList
  | number s => s.toList
  | string s => quote s

/-- Items, each on a line of its own. -/
def prettyItems (level : Nat) : List Json → List Char
  | [] => []
  | [v] => newline level ++ prettyAt level v
  | v :: vs => newline level ++ prettyAt level v ++ ',' :: prettyItems level vs

/-- Fields, each on a line of its own. -/
def prettyFields (level : Nat) : List (String × Json) → List Char
  | [] => []
  | [(k, v)] => newline level ++ quote k ++ ':' :: ' ' :: prettyAt level v
  | (k, v) :: vs =>
    newline level ++ quote k ++ ':' :: ' ' :: prettyAt level v ++ ',' :: prettyFields level vs

end

def render (v : Json) : String := String.ofList (compact v)

def pretty (v : Json) : String := String.ofList (prettyAt 0 v)

end Progression.Json
