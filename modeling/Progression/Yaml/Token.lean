import Progression.Yaml.Scalar

/-!
The tokens of YAML text. Whether a scalar is a key is known only from the colon after it. A token
list therefore holds a place in front of everything that may turn out to be a key; the place is
filled when the colon comes, and the places are resolved at the end.
-/

namespace Progression.Yaml

/-- A token. -/
inductive Token where
  | version (major minor : Nat)
  | tagHandle (handle : String) (lead : String)
  | documentStart | documentEnd
  | blockSequence | blockMapping | blockEnd
  | flowSequence | flowSequenceEnd | flowMapping | flowMappingEnd
  | blockEntry | flowEntry | key | value
  | alias (name : String)
  | anchor (name : String)
  | tag (handle suffix : String)
  | scalar (style : Style) (text : String)
  deriving DecidableEq, Repr

/-- A token, or the place where a key may begin. -/
inductive Piece where
  | token (t : Token)
  | place (n : Nat)
  deriving DecidableEq, Repr

/-- What a place is filled with: a key, and a mapping that begins with it or none. -/
structure Filling where
  place : Nat
  mapping : Bool
  deriving DecidableEq, Repr

def resolve (fillings : List Filling) (pieces : List Piece) : List Token :=
  pieces.flatMap fun
    | .token t => [t]
    | .place n =>
      match fillings.find? (·.place = n) with
      | some f => if f.mapping then [.blockMapping, .key] else [.key]
      | none => []

/-! ### Names, tags and directives -/

/-- A name after `&` or `*`, which must end where a node may. -/
def anchorName? (s : List Char) : Option (String × List Char) :=
  let name := s.takeWhile isNamePart
  let rest := s.drop name.length
  let ends := atBlank rest || match rest with
    | c :: _ => ['?', ':', ',', ']', '\x7d', '%', '@', '\x60'].contains c
    | [] => true
  if name.isEmpty || !ends then none else some (String.ofList name, rest)

def isUriPart (verbatim : Bool) (c : Char) : Bool :=
  isNamePart c || [';', '/', '?', ':', '@', '&', '=', '+', '$', '.', '!', '~', '*', '\'', '(',
    ')'].contains c || (verbatim && [',', '[', ']'].contains c)

/-- One byte written as a percent sign and two digits. -/
def escapedByte? : List Char → Option (Nat × List Char)
  | '%' :: a :: b :: rest =>
    match Number.digitValue? 16 a, Number.digitValue? 16 b with
    | some x, some y => some (x * 16 + y, rest)
    | _, _ => none
  | _ => none

/-- So many further bytes of a character. -/
def moreBytes? : Nat → Nat → List Char → Option (Nat × List Char)
  | 0, value, s => some (value, s)
  | n + 1, value, s =>
    match escapedByte? s with
    | some (b, rest) => if b / 64 = 2 then moreBytes? n (value * 64 + b % 64) rest else none
    | none => none

/-- A character written as escaped bytes. -/
def escapedChar? (s : List Char) : Option (Char × List Char) := do
  let (b, rest) ← escapedByte? s
  let (value, rest) ←
    if b < 0x80 then some (b, rest)
    else if b / 32 = 6 then moreBytes? 1 (b % 32) rest
    else if b / 16 = 14 then moreBytes? 2 (b % 16) rest
    else if b / 8 = 30 then moreBytes? 3 (b % 8) rest
    else none
  return (← Text.ofCodePoint? value, rest)

/-- The part of a tag that stands for itself, with its escapes undone, at most so many
characters. -/
def uri (verbatim : Bool) : Nat → List Char → Option (List Char × List Char)
  | 0, s => some ([], s)
  | n + 1, s =>
    match s with
    | '%' :: _ =>
      match escapedChar? s with
      | some (c, rest) => (uri verbatim n rest).map fun (u, r) => (c :: u, r)
      | none => none
    | c :: rest =>
      if isUriPart verbatim c then (uri verbatim n rest).map fun (u, r) => (c :: u, r)
      else some ([], s)
    | [] => some ([], [])

/-- A handle of tags: `!`, or a name between two exclamation marks. -/
def handle? : List Char → Option (List Char × List Char)
  | '!' :: s =>
    let name := s.takeWhile isNamePart
    match s.drop name.length with
    | '!' :: rest => some ('!' :: name ++ ['!'], rest)
    | rest => some ('!' :: name, rest)
  | _ => none

/-- A tag, which must end before a blank, or inside brackets before a comma. -/
def tag? (flow : Bool) (s : List Char) : Option (Token × List Char) := do
  let (token, rest) ← match s with
    | '!' :: '<' :: s =>
      let (u, rest) ← uri true s.length s
      match rest with
      | '>' :: rest => if u.isEmpty then none else some (Token.tag "" (String.ofList u), rest)
      | _ => none
    | _ =>
      let (h, rest) ← handle? s
      let (u, rest) ← uri false rest.length rest
      if 1 < h.length && h.getLast? = some '!' then
        if u.isEmpty then none else some (Token.tag (String.ofList h) (String.ofList u), rest)
      else
        let suffix := h.drop 1 ++ u
        some (if suffix.isEmpty then Token.tag "" "!" else Token.tag "!" (String.ofList suffix), rest)
  if atBlank rest || (flow && rest.head? = some ',') then some (token, rest) else none

def versionNumber? (s : List Char) : Option (Nat × List Char) :=
  let ds := s.takeWhile Char.isDigit
  if ds.isEmpty || 9 < ds.length then none
  else (Number.digits? 10 ds).map (·, s.drop ds.length)

/-- What a directive says, from the line after its percent sign. -/
def directive? (line : List Char) : Option Token := do
  let name := line.takeWhile isNamePart
  let body := line.drop name.length
  if name.isEmpty || !atBlank body then none
  let body := body.dropWhile isBlank
  let ends (s : List Char) : Bool :=
    match s.dropWhile isBlank with
    | [] => true
    | c :: _ => c == '#'
  if name = "YAML".toList then
    let (major, s) ← versionNumber? body
    match s with
    | '.' :: s =>
      let (minor, s) ← versionNumber? s
      if ends s then some (.version major minor) else none
    | _ => none
  else if name = "TAG".toList then
    let (h, s) ← handle? body
    if 1 < h.length && h.getLast? != some '!' then none
    if s.isEmpty || !atBlank s then none
    let s := s.dropWhile isBlank
    let (lead, s) ← uri true s.length s
    if lead.isEmpty || !atBlank s then none
    if ends s then some (.tagHandle (String.ofList h) (String.ofList lead)) else none
  else none

end Progression.Yaml
