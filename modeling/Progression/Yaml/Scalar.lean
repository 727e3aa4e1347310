import Progression.Number.Digits
import Progression.Text.Search
import Progression.Yaml.Basic

/-!
Reading scalars: plain ones, quoted ones, and blocks. Each kind is read one character at a time.
Blanks inside a scalar are held back until it is known whether the line goes on; a line break
counts as a blank, and further breaks after it as themselves.
-/

namespace Progression.Yaml

open Progression.Text

/-- A place in a text. -/
structure Mark where
  line : Nat := 0
  column : Nat := 0
  index : Nat := 0
  deriving DecidableEq, Repr, Inhabited

def Mark.after (m : Mark) (c : Char) : Mark :=
  if isBreak c then ⟨m.line + 1, 0, m.index + 1⟩ else ⟨m.line, m.column + 1, m.index + 1⟩

/-- The place after some characters on one line. -/
def Mark.skip (m : Mark) (n : Nat) : Mark := ⟨m.line, m.column + n, m.index + n⟩

/-! ### Folding -/

/-- A scalar under way. Everything is kept in reverse. -/
structure Folding where
  text : List Char := []
  /-- Blanks since the text, on the same line. -/
  blanks : List Char := []
  leading : List Char := []
  trailing : List Char := []
  /-- Whether the line of the text has ended. -/
  broken : Bool := false
  deriving Repr

namespace Folding

variable (f : Folding)

/-- Held-back blanks put into the text. -/
def join : Folding :=
  if f.broken then
    let between := if f.leading = ['\n'] then (if f.trailing.isEmpty then [' '] else f.trailing)
      else f.trailing ++ f.leading
    { text := between ++ f.text }
  else { text := f.blanks ++ f.text }

def add (c : Char) : Folding := { f.join with text := c :: f.join.text }

/-- A blank. -/
def addBlank (c : Char) : Folding := if f.broken then f else { f with blanks := c :: f.blanks }

def addBreak (c : Char) : Folding :=
  if f.broken then { f with trailing := c :: f.trailing }
  else { f with blanks := [], leading := [c], broken := true }

/-- The end of a line that is not to count. -/
def escapeBreak : Folding := { f.join with broken := true }

def result : String := String.ofList f.text.reverse

end Folding

/-- A scalar that has been read, and where the text goes on. -/
structure Scanned where
  text : String
  mark : Mark
  rest : List Char
  /-- Whether the scalar ended in front of blanks at the beginning of a line. -/
  broken : Bool := false

/-! ### Plain scalars -/

/-- Where a plain scalar may stand: inside brackets or not, and the least column of its lines. -/
structure PlainContext where
  flow : Bool
  indent : Nat

/-- Indicators that end a plain scalar inside brackets. -/
def isFlowIndicator (c : Char) : Bool :=
  c == ',' || c == '[' || c == ']' || c == '\x7b' || c == '\x7d'

/-- Whether a plain scalar ends before a text that begins with no blank. -/
def plainEnds (k : PlainContext) (f : Folding) (m : Mark) (s : List Char) : Bool :=
  let fresh := f.broken || !f.blanks.isEmpty
  (fresh && ((!k.flow && m.column < k.indent) || (m.column = 0 && atDocumentMark s)
    || s.head? = some '#'))
  || match s with
    | ':' :: rest => atBlank rest
    | c :: _ => k.flow && isFlowIndicator c
    | [] => true

/-- Whether a text begins with a colon that must not stand inside brackets. -/
def isStrayColon : List Char → Bool
  | ':' :: c :: _ => isFlowIndicator c || c == '?'
  | _ => false

def plainFrom (k : PlainContext) (f : Folding) (m : Mark) : List Char → Option Scanned
  | [] => some ⟨f.result, m, [], f.broken⟩
  | c :: cs =>
    if isBlank c then
      if f.broken && m.column < k.indent && c = '\t' then none
      else plainFrom k (f.addBlank c) (m.after c) cs
    else if isBreak c then plainFrom k (f.addBreak c) (m.after c) cs
    else if k.flow && isStrayColon (c :: cs) then none
    else if plainEnds k f m (c :: cs) then some ⟨f.result, m, c :: cs, f.broken⟩
    else plainFrom k (f.add c) (m.after c) cs

/-! ### Quoted scalars -/

/-- What the reader of a quoted scalar is in the middle of. -/
inductive Quoting where
  | text
  /-- After a single quote, which may be the first of two. -/
  | quote
  | escape
  | digits (value left : Nat)
  deriving DecidableEq, Repr

/-- The character that a one-letter escape stands for. -/
def escaped? (c : Char) : Option Char :=
  match c with
  | '0' => some '\x00'
  | 'a' => some '\x07'
  | 'b' => some '\x08'
  | 't' => some '\t'
  | '\t' => some '\t'
  | 'n' => some '\n'
  | 'v' => some '\x0b'
  | 'f' => some '\x0c'
  | 'r' => some '\r'
  | 'e' => some '\x1b'
  | ' ' => some ' '
  | '"' => some '"'
  | '/' => some '/'
  | '\\' => some '\\'
  | 'N' => some '\u0085'
  | '_' => some '\u00a0'
  | 'L' => some '\u2028'
  | 'P' => some '\u2029'
  | _ => none

def escapeWidth? (c : Char) : Option Nat :=
  match c with
  | 'x' => some 2
  | 'u' => some 4
  | 'U' => some 8
  | _ => none

/-- The rest of a quoted scalar, its closing quote included. -/
def quotedFrom (single : Bool) (f : Folding) (m : Mark) : Quoting → List Char → Option Scanned
  | .quote, [] => some ⟨f.result, m, [], false⟩
  | _, [] => none
  | .text, c :: cs =>
    if isBlank c then quotedFrom single (f.addBlank c) (m.after c) .text cs
    else if isBreak c then quotedFrom single (f.addBreak c) (m.after c) .text cs
    else if m.column = 0 && atDocumentMark (c :: cs) then none
    else if single && c = '\'' then quotedFrom single f.join (m.after c) .quote cs
    else if !single && c = '"' then some ⟨f.join.result, m.after c, cs, false⟩
    else if !single && c = '\\' then quotedFrom single f.join (m.after c) .escape cs
    else quotedFrom single (f.add c) (m.after c) .text cs
  | .quote, c :: cs =>
    if c = '\'' then quotedFrom single (f.add c) (m.after c) .text cs
    else some ⟨f.result, m, c :: cs, false⟩
  | .escape, c :: cs =>
    if isBreak c then quotedFrom single f.escapeBreak (m.after c) .text cs
    else match escaped? c, escapeWidth? c with
      | some d, _ => quotedFrom single (f.add d) (m.after c) .text cs
      | none, some n => quotedFrom single f (m.after c) (.digits 0 n) cs
      | none, none => none
  | .digits value left, c :: cs =>
    match Number.digitValue? 16 c with
    | none => none
    | some d =>
      let value := value * 16 + d
      if 1 < left then quotedFrom single f (m.after c) (.digits value (left - 1)) cs
      else match ofCodePoint? value with
        | some ch => quotedFrom single (f.add ch) (m.after c) .text cs
        | none => none

/-! ### Blocks -/

/-- What becomes of the line breaks at the end of a block. -/
inductive Chomping where
  | strip | clip | keep
  deriving DecidableEq, Repr

/-- How a block is to be read: with its line breaks or folded, the column of its lines if it is
given, the least column there can be, and what becomes of its end. -/
structure BlockContext where
  literal : Bool
  given : Option Nat
  least : Nat
  chomping : Chomping

/-- A block under way. Everything is kept in reverse. -/
structure Block where
  text : List Char := []
  leading : List Char := []
  trailing : List Char := []
  /-- Whether the last line began with a blank. -/
  wasBlank : Bool := false
  /-- The column of the lines, once it is known. -/
  indent : Option Nat
  /-- The greatest column of the blank lines at the beginning. -/
  widest : Nat := 0

namespace Block

variable (b : Block)

/-- Line breaks put into the text before a line that begins with a character. -/
def join (k : BlockContext) (c : Char) : List Char :=
  let folds := !k.literal && b.leading = ['\n'] && !b.wasBlank && !isBlank c
  let between := if folds then (if b.trailing.isEmpty then [' '] else []) else b.leading
  b.trailing ++ between ++ b.text

def result (k : BlockContext) : String :=
  let tail := match k.chomping with
    | .strip => []
    | .clip => b.leading
    | .keep => b.trailing ++ b.leading
  String.ofList (tail ++ b.text).reverse

end Block

/-- The rest of a block, in a line or before one. -/
def blockFrom (k : BlockContext) (b : Block) (inLine : Bool) (m : Mark) :
    List Char → Option Scanned
  | [] => some ⟨b.result k, m, [], false⟩
  | c :: cs =>
    if inLine then
      if isBreak c then blockFrom k { b with leading := [c], trailing := [] } false (m.after c) cs
      else blockFrom k { b with text := c :: b.text } true (m.after c) cs
    else
      let before := match b.indent with
        | some n => m.column < n
        | none => true
      if c = ' ' && before then blockFrom k b false (m.after c) cs
      else if c = '\t' && before then none
      else if isBreak c then
        blockFrom k { b with trailing := c :: b.trailing, widest := max b.widest m.column } false
          (m.after c) cs
      else
        let indent := b.indent.getD (max (max b.widest m.column) k.least)
        if m.column = indent then
          blockFrom k { b with
            text := c :: b.join k c, leading := [], trailing := [], wasBlank := isBlank c
            indent := some indent } true (m.after c) cs
        else some ⟨b.result k, m, c :: cs, false⟩

/-- The signs after the indicator of a block: what becomes of its end, and how much deeper than
its parent it is. -/
def blockSigns? : List Char → Option (Chomping × Option Nat × List Char)
  | s =>
    let sign : List Char → Chomping × List Char
      | '+' :: r => (.keep, r)
      | '-' :: r => (.strip, r)
      | r => (.clip, r)
    let digit : List Char → Option (Option Nat × List Char)
      | c :: r =>
        if c = '0' then none
        else if c.isDigit then some (some (c.toNat - 48), r) else some (none, c :: r)
      | [] => some (none, [])
    match sign s with
    | (.clip, s) =>
      match digit s with
      | none => none
      | some (none, s) => some (.clip, none, s)
      | some (some n, s) =>
        let (chomping, s) := sign s
        some (chomping, some n, s)
    | (chomping, s) => (digit s).map fun (n, s) => (chomping, n, s)

/-- A block after its indicator. The column of the node that holds it bounds its own. -/
def block? (literal : Bool) (parent : Int) (m : Mark) (s : List Char) : Option Scanned := do
  let (chomping, step, after) ← blockSigns? s
  let line := after.takeWhile fun c => !isBreak c
  let comment := line.dropWhile isBlank
  if !comment.isEmpty && comment.head? != some '#' then none
  let m := m.skip (s.length - after.length + line.length)
  let least := (max (parent + 1) 1).toNat
  let given := step.map fun n => if parent < 0 then n else parent.toNat + n
  let k : BlockContext := ⟨literal, given, least, chomping⟩
  match after.drop line.length with
  | c :: cs => blockFrom k { indent := given } false (m.after c) cs
  | [] => some ⟨"", m, [], false⟩

end Progression.Yaml
