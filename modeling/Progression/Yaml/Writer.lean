import Progression.Document
import Progression.Yaml.Decode

/-!
YAML text: block style, two columns for a level, the items of a sequence at the column of the key
that holds them. A string is written plain if it reads back as itself, else between single quotes,
else between double quotes; a string of several lines as a literal block.
-/

namespace Progression.Yaml

open Progression.Number Progression.Text

/-! ### How a string is written -/

def truthWords : List String := ["true", "True", "TRUE", "false", "False", "FALSE"]

def nullWords : List String := ["", "~", "null", "Null", "NULL"]

/-- The greatest count of units of a whole number that readers know. -/
def largestWhole : Nat := UInt64.size * UInt64.size

/-- Whether a text is a negative whole number in another radix. -/
def isNegativeWhole (s : List Char) : Bool :=
  let radix (mark : String) (r : Nat) : Bool :=
    match after? mark.toList s with
    | some ds => ((digits? r ds).filter (· ≤ largestWhole / 2)).isSome
    | none => false
  radix "-0x" 16 || radix "-0o" 8 || radix "-0b" 2

/-- Whether a text without quotes would be read as something else than a string. -/
def isAmbiguous (s : String) : Bool :=
  truthWords.contains s || nullWords.contains s || (natural? largestWhole s.toList).isSome
    || isNegativeWhole s.toList || isPadded s.toList || (real? s.toList).isSome

def isPrintable (c : Char) : Bool :=
  let n := c.toNat
  n = 10 || (0x20 ≤ n && n ≤ 0x7E) || (0xA0 ≤ n && n ≤ 0xFFFD && n ≠ 0xFEFF) || 0x10000 ≤ n

def startIndicators : List Char :=
  ['#', ',', '[', ']', '\x7b', '\x7d', '&', '*', '!', '|', '>', '\'', '"', '%', '@', '\x60']

/-- Whether a text without its first character, which is given, holds something that ends a plain
scalar: a colon before a blank, or a number sign after one. -/
def hasIndicator : Char → List Char → Bool
  | _, [] => false
  | before, c :: cs =>
    (c = ':' && atBlank cs) || (c = '#' && (isBlank before || isBreak before)) || hasIndicator c cs

/-- Whether a text begins like something that is no plain scalar. -/
def startsBadly : List Char → Bool
  | [] => false
  | c :: cs =>
    startIndicators.contains c || ((c = '?' || c = ':' || c = '-') && atBlank cs)
      || (after? "---".toList (c :: cs)).isSome || (after? "...".toList (c :: cs)).isSome

/-- Whether one character of a kind stands directly before one of another. -/
def meet (p q : Char → Bool) : List Char → Bool
  | a :: b :: cs => (p a && q b) || meet p q (b :: cs)
  | _ => false

def isSpace (c : Char) : Bool := c == ' '

/-- Whether a text has a space or a line end at one of its ends. -/
def hasLooseEnd (s : List Char) : Bool :=
  s.head?.any (fun c => isSpace c || isBreak c) || s.getLast?.any (fun c => isSpace c || isBreak c)

/-- Whether only double quotes can hold a text. -/
def isSpecial (s : List Char) : Bool := s.any (fun c => !isPrintable c) || meet isSpace isBreak s

/-- Whether a text can be written without quotes. -/
def isPlainText (s : List Char) : Bool :=
  !isSpecial s && !s.any isBreak && !hasLooseEnd s && !startsBadly s
    && match s with
      | c :: cs => !hasIndicator c cs
      | [] => true

def styleOf (s : String) : Style :=
  let cs := s.toList
  if cs.contains '\n' then
    if isSpecial cs || cs.getLast?.any isSpace then .double else .literal
  else if isSpecial cs then .double
  else if isAmbiguous s || !isPlainText cs then
    if meet isBreak isSpace cs then .double else .single
  else .plain

def ofString (s : String) : Yaml := .scalar (styleOf s) none s

def ofNat (n : Nat) : Yaml := plain (text n)

/-- A number of single precision as a node. -/
def ofSingle (v : Single) : Yaml :=
  let bits := v.bits.toNat
  let m := single.magnitude bits
  plain (
    if single.infinity < m then ".nan"
    else if m = single.infinity then (if single.isNegative bits then "-.inf" else ".inf")
    else single.scientific Document.spread bits)

def ofFields (fields : List (String × Yaml)) : Yaml :=
  mapping (fields.map fun (name, value) => (ofString name, value))

instance : Document Yaml where
  number := ofNat
  single := ofSingle
  text := ofString
  nothing := plain "null"
  list := sequence
  record := ofFields

/-! ### Text -/

def spaces (n : Nat) : List Char := List.replicate n ' '

/-- The text between single quotes. A line after a break begins at a column. -/
def singleBody (column : Nat) : Bool → List Char → List Char
  | _, [] => []
  | afterBreak, c :: cs =>
    if isBreak c then c :: singleBody column true cs
    else
      (if afterBreak then spaces column else []) ++ (if c = '\'' then ['\'', '\''] else [c])
        ++ singleBody column false cs

def hexDigit (n : Nat) : Char := if n < 10 then Char.ofNat (48 + n) else Char.ofNat (55 + n)

def hexDigits : Nat → Nat → List Char
  | 0, _ => []
  | k + 1, n => hexDigits k (n / 16) ++ [hexDigit (n % 16)]

def escapeLetter? (c : Char) : Option Char :=
  match c.toNat with
  | 0 => some '0'
  | 7 => some 'a'
  | 8 => some 'b'
  | 9 => some 't'
  | 10 => some 'n'
  | 11 => some 'v'
  | 12 => some 'f'
  | 13 => some 'r'
  | 27 => some 'e'
  | 34 => some '"'
  | 92 => some '\\'
  | 0x85 => some 'N'
  | 0xA0 => some '_'
  | 0x2028 => some 'L'
  | 0x2029 => some 'P'
  | _ => none

def doubleChar (c : Char) : List Char :=
  if isPrintable c && !isBreak c && c ≠ '"' && c ≠ '\\' then [c]
  else match escapeLetter? c with
    | some l => ['\\', l]
    | none =>
      let n := c.toNat
      if n ≤ 0xFF then '\\' :: 'x' :: hexDigits 2 n
      else if n ≤ 0xFFFF then '\\' :: 'u' :: hexDigits 4 n
      else '\\' :: 'U' :: hexDigits 8 n

/-- The lines of a block, each at a column, but for empty ones. -/
def blockLines (column : Nat) : Bool → List Char → List Char
  | _, [] => []
  | afterBreak, c :: cs =>
    if isBreak c then c :: blockLines column true cs
    else (if afterBreak then spaces column else []) ++ c :: blockLines column false cs

/-- The signs after the indicator of a block: how deep it is, if its first line begins with a
blank, and what becomes of its end. -/
def blockSigns (s : List Char) : List Char :=
  let depth := if s.head?.any (fun c => isSpace c || isBreak c) then ['2'] else []
  let chomping := match s.reverse with
    | a :: b :: _ => if !isBreak a then ['-'] else if isBreak b then ['+'] else []
    | [a] => if isBreak a then ['+'] else ['-']
    | [] => ['-']
  depth ++ chomping

/-- The text of a scalar whose further lines stand at a column. -/
def scalarText (column : Nat) (style : Style) (text : String) : List Char :=
  let s := text.toList
  match style with
  | .plain => s
  | .single => '\'' :: singleBody column false s ++ ['\'']
  | .double => '"' :: s.flatMap doubleChar ++ ['"']
  | .literal | .folded => '|' :: blockSigns s ++ '\n' :: blockLines column true s

/-- A line ended, unless it is. -/
def endLine (s : List Char) : List Char := if s.getLast?.any isBreak then s else s ++ ['\n']

mutual

/-- A node after a key or a hyphen, down to the end of its last line: on the same line if it is a
scalar or empty, else on lines of its own; `column` is where its entries stand, and a sequence
under a key stands at the column of the key. -/
def valueText (column key : Nat) : Yaml → List Char
  | scalar style _ text => ' ' :: endLine (scalarText column style text)
  | inner => ['\n']
  | sequence [] => " []\n".toList
  | mapping [] => " \x7b\x7d\n".toList
  | sequence items => '\n' :: itemsText key items
  | mapping entries => '\n' :: entriesText column entries

def itemsText (column : Nat) : List Yaml → List Char
  | [] => []
  | item :: items => spaces column ++ '-' :: itemText column item ++ itemsText column items

/-- An item after its hyphen. A mapping begins on the same line. -/
def itemText (column : Nat) : Yaml → List Char
  | scalar style _ text => ' ' :: endLine (scalarText (column + 2) style text)
  | inner => ['\n']
  | sequence [] => " []\n".toList
  | mapping [] => " \x7b\x7d\n".toList
  | sequence items => '\n' :: itemsText (column + 2) items
  | mapping entries => ' ' :: (entriesText (column + 2) entries).drop (column + 2)

def entriesText (column : Nat) : List (Yaml × Yaml) → List Char
  | [] => []
  | (scalar style _ text, value) :: entries =>
    spaces column ++ scalarText (column + 2) style text ++ ':' :: valueText (column + 2) column value
      ++ entriesText column entries
  | (_, value) :: entries =>
    spaces column ++ ':' :: valueText (column + 2) column value ++ entriesText column entries

end

def render : Yaml → String
  | mapping [] => "\x7b\x7d\n"
  | mapping entries => String.ofList (entriesText 0 entries)
  | sequence [] => "[]\n"
  | sequence items => String.ofList (itemsText 0 items)
  | scalar style _ text => String.ofList (endLine (scalarText 2 style text))
  | inner => "\n"

end Progression.Yaml
