import Progression.Yaml.Token

/-!
Tokens from YAML text. The scanner keeps the columns of the open blocks, the depth of brackets,
and for each depth the place of what may be a key. A key ends on the line where it began, within
1024 characters, and what begins a line of a block mapping must be one.
-/

namespace Progression.Yaml

/-- What may turn out to be a key. -/
structure KeyPlace where
  place : Nat
  mark : Mark
  /-- Whether nothing but a key can stand here. -/
  required : Bool
  deriving DecidableEq, Repr

/-- The scanner between two tokens. -/
structure Scanner where
  rest : List Char
  mark : Mark := {}
  /-- The pieces so far, the newest first. -/
  pieces : List Piece := []
  fillings : List Filling := []
  places : Nat := 0
  /-- The column of the innermost block; -1 outside all blocks. -/
  indent : Int := -1
  indents : List Int := []
  /-- What may be a key, at this depth of brackets and at those around it. -/
  keys : List (Option KeyPlace) := [none]
  keyAllowed : Bool := true

namespace Scanner

variable (s : Scanner)

def inFlow : Bool := 1 < s.keys.length

def emit (t : Token) : Scanner := { s with pieces := .token t :: s.pieces }

def advance (n : Nat) : Scanner := { s with rest := s.rest.drop n, mark := s.mark.skip n }

/-! ### Blanks -/

/-- The place after blanks, comments and line breaks, and whether a key may begin there. -/
def skipIdle (flow : Bool) (allowed comment : Bool) (m : Mark) :
    List Char → Bool × Mark × List Char
  | [] => (allowed, m, [])
  | c :: cs =>
    if isBreak c then skipIdle flow (allowed || !flow) false (m.after c) cs
    else if comment then skipIdle flow allowed true (m.after c) cs
    else if c = ' ' || (c = '\t' && (flow || !allowed)) then
      skipIdle flow allowed false (m.after c) cs
    else if c = '#' then skipIdle flow allowed true (m.after c) cs
    else (allowed, m, c :: cs)

/-- The scanner in front of the next token. -/
def toNext : Scanner :=
  let (keyAllowed, mark, rest) := skipIdle s.inFlow s.keyAllowed false s.mark s.rest
  { s with rest, mark, keyAllowed }

/-! ### Keys -/

/-- Whether a key that began there can no longer end. -/
def isStale (k : KeyPlace) : Bool :=
  k.mark.line < s.mark.line || k.mark.index + 1024 < s.mark.index

/-- Gives up what can no longer be a key. -/
def dropStale : Option Scanner := do
  if s.keys.any fun k => k.any fun k => s.isStale k && k.required then none
  return { s with keys := s.keys.map fun k => k.filter fun k => !s.isStale k }

/-- Gives up what may be a key at this depth. -/
def dropKey : Option Scanner :=
  match s.keys with
  | some k :: ks => if k.required then none else some { s with keys := none :: ks }
  | _ => some s

/-- Makes room for a key that may begin here. -/
def saveKey : Option Scanner := do
  if !s.keyAllowed then return s
  let s ← s.dropKey
  let key : KeyPlace := ⟨s.places, s.mark, !s.inFlow && s.indent = s.mark.column⟩
  return { s with
    keys := some key :: s.keys.drop 1
    pieces := .place s.places :: s.pieces
    places := s.places + 1 }

/-! ### Blocks -/

/-- Opens a block at a column, unless one is open there. The answer says whether it did. -/
def rollTo (column : Nat) : Bool × Scanner :=
  if !s.inFlow && s.indent < column then
    (true, { s with indent := column, indents := s.indent :: s.indents })
  else (false, s)

/-- Opens a block here, unless one is open. -/
def openBlock (t : Token) : Scanner :=
  let (opened, s) := s.rollTo s.mark.column
  if opened then s.emit t else s

/-- Closes blocks until the innermost one is no deeper than a column. -/
def closeBlocks (column indent : Int) : List Int → List Piece → Int × List Int × List Piece
  | [], pieces => (indent, [], pieces)
  | outer :: indents, pieces =>
    if column < indent then closeBlocks column outer indents (.token .blockEnd :: pieces)
    else (indent, outer :: indents, pieces)

/-- Closes the blocks that are deeper than a column. -/
def unrollTo (column : Int) : Scanner :=
  if s.inFlow then s
  else
    let (indent, indents, pieces) := closeBlocks column s.indent s.indents s.pieces
    { s with indent, indents, pieces }

/-! ### Tokens -/

def take (style : Style) (r : Scanned) : Scanner :=
  { s with rest := r.rest, mark := r.mark }.emit (.scalar style r.text)

def finish : Option (List Token) := do
  let s := if s.mark.column = 0 then s else { s with mark := ⟨s.mark.line + 1, 0, s.mark.index⟩ }
  let s ← (s.unrollTo (-1)).dropKey
  return resolve s.fillings s.pieces.reverse

/-- A directive or a mark between documents; both close every block. -/
def outside (t : Token) (n : Nat) : Option Scanner := do
  let s ← (s.unrollTo (-1)).dropKey
  return ({ s with keyAllowed := false }.advance n).emit t

def openFlow (t : Token) : Option Scanner := do
  let s ← s.saveKey
  return ({ s with keys := none :: s.keys, keyAllowed := true }.advance 1).emit t

def closeFlow (t : Token) : Option Scanner := do
  let s ← s.dropKey
  let keys := if s.inFlow then s.keys.drop 1 else s.keys
  return ({ s with keys, keyAllowed := false }.advance 1).emit t

def blockEntry : Option Scanner := do
  if !s.inFlow && !s.keyAllowed then none
  let s := if s.inFlow then s else s.openBlock .blockSequence
  let s ← s.dropKey
  return ({ s with keyAllowed := true }.advance 1).emit .blockEntry

def explicitKey : Option Scanner := do
  if !s.inFlow && !s.keyAllowed then none
  let s := if s.inFlow then s else s.openBlock .blockMapping
  let s ← s.dropKey
  return ({ s with keyAllowed := !s.inFlow }.advance 1).emit .key

def colon : Option Scanner := do
  match s.keys with
  | some k :: ks =>
    let (opened, s) := s.rollTo k.mark.column
    return ({ s with
      keys := none :: ks
      fillings := ⟨k.place, opened⟩ :: s.fillings
      keyAllowed := false }.advance 1).emit .value
  | _ =>
    if !s.inFlow && !s.keyAllowed then none
    let s := if s.inFlow then s else s.openBlock .blockMapping
    return ({ s with keyAllowed := !s.inFlow }.advance 1).emit .value

/-- An anchor or an alias after its sign. -/
def anchor (make : String → Token) : Option Scanner := do
  let s ← s.saveKey
  let (name, rest) ← anchorName? (s.rest.drop 1)
  return ({ s with keyAllowed := false }.advance (s.rest.length - rest.length)).emit (make name)

def tag : Option Scanner := do
  let s ← s.saveKey
  let (t, rest) ← tag? s.inFlow s.rest
  return ({ s with keyAllowed := false }.advance (s.rest.length - rest.length)).emit t

def block (style : Style) : Option Scanner := do
  let s ← s.dropKey
  let r ← block? (style = .literal) s.indent (s.mark.skip 1) (s.rest.drop 1)
  return { s with keyAllowed := true }.take style r

def quoted (style : Style) : Option Scanner := do
  let s ← s.saveKey
  let r ← quotedFrom (style = .single) {} (s.mark.skip 1) .text (s.rest.drop 1)
  return { s with keyAllowed := false }.take style r

def plainScalar : Option Scanner := do
  let s ← s.saveKey
  let r ← plainFrom ⟨s.inFlow, (s.indent + 1).toNat⟩ {} s.mark s.rest
  return { s with keyAllowed := r.broken }.take .plain r

def indicators : List Char :=
  ['-', '?', ':', ',', '[', ']', '\x7b', '\x7d', '#', '&', '*', '!', '|', '>', '\'', '"', '%', '@',
    '\x60']

def startsPlain (c : Char) (after : List Char) : Bool :=
  (!isBlank c && !indicators.contains c)
    || (c = '-' && !(after.head?.any isBlank))
    || (!s.inFlow && (c = '?' || c = ':') && !atBlank after)

def next (c : Char) (after : List Char) : Option Scanner :=
  if s.mark.column = 0 && c = '%' then
    let line := after.takeWhile fun c => !isBreak c
    match directive? line with
    | some t => s.outside t (line.length + 1)
    | none => none
  else if s.mark.column = 0 && atDocumentMark s.rest then
    s.outside (if c = '-' then .documentStart else .documentEnd) 3
  else if c = '[' then s.openFlow .flowSequence
  else if c = '\x7b' then s.openFlow .flowMapping
  else if c = ']' then s.closeFlow .flowSequenceEnd
  else if c = '\x7d' then s.closeFlow .flowMappingEnd
  else if c = ',' then do
    let s ← s.dropKey
    return ({ s with keyAllowed := true }.advance 1).emit .flowEntry
  else if c = '-' && atBlank after then s.blockEntry
  else if c = '?' && (s.inFlow || atBlank after) then s.explicitKey
  else if c = ':' && (s.inFlow || atBlank after) then s.colon
  else if c = '*' then s.anchor .alias
  else if c = '&' then s.anchor .anchor
  else if c = '!' then s.tag
  else if c = '|' && !s.inFlow then s.block .literal
  else if c = '>' && !s.inFlow then s.block .folded
  else if c = '\'' then s.quoted .single
  else if c = '"' then s.quoted .double
  else if s.startsPlain c after then s.plainScalar
  else none

/-- Tokens until the end of the text, in so many steps. -/
def run (s : Scanner) : Nat → Option (List Token)
  | 0 => none
  | n + 1 =>
    match s.toNext.dropStale with
    | none => none
    | some s =>
      let s := s.unrollTo s.mark.column
      match s.rest with
      | [] => s.finish
      | c :: after =>
        match s.next c after with
        | some s => run s n
        | none => none

end Scanner

def isAllowed (c : Char) : Bool :=
  let n := c.toNat
  n = 9 || n = 10 || n = 13 || (0x20 ≤ n && n ≤ 0x7E) || n = 0x85 || (0xA0 ≤ n && n ≤ 0xFFFD) ||
    0x10000 ≤ n

/-- The text with a line feed for every line end, but for the line and the paragraph separator,
which stay. -/
def unifyBreaks : List Char → List Char
  | '\r' :: '\n' :: cs => '\n' :: unifyBreaks cs
  | c :: cs => (if c = '\r' || c = '\u0085' then '\n' else c) :: unifyBreaks cs
  | [] => []

/-- The tokens of a text. Every token takes at least one character, which bounds the steps. -/
def tokens? (text : String) : Option (List Token) :=
  let s := text.toList
  if s.all isAllowed then
    let body := unifyBreaks (s.dropWhile (· = '\ufeff'))
    Scanner.run { rest := body } (body.length + 1)
  else none

end Progression.Yaml
