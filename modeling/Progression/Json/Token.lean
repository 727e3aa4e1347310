import Progression.Text.Search
import Progression.Number.Digits

/-!
The tokens of JSON text. The lexer reads one character at a time; its state says what is under
way, and a token is given out with the character that ends it.
-/

namespace Progression.Json

/-- A token. -/
inductive Token where
  | openArray | closeArray | openObject | closeObject | comma | colon
  | null | true | false
  | string (value : String)
  | number (literal : String)
  deriving DecidableEq, Repr

/-- What the lexer is in the middle of. Characters read so far are kept in reverse. -/
inductive Lexer where
  | between
  | inString (read : List Char)
  /-- A string, just after a backslash. -/
  | escaped (read : List Char)
  /-- A string, in a `\u` escape: the unit so far, the digits missing, and the first unit of a
  pair that waits for its second. -/
  | unit (read : List Char) (value missing : Nat) (high : Option Nat)
  /-- A string, after the first unit of a pair. -/
  | half (read : List Char) (high : Nat)
  /-- A string, at the `u` of the second unit of a pair. -/
  | halfEscaped (read : List Char) (high : Nat)
  | inWord (read : List Char)
  deriving DecidableEq, Repr

/-- The blanks of JSON. -/
def isJsonBlank (c : Char) : Bool := c == ' ' || c == '\t' || c == '\n' || c == '\r'

def isWordPart (c : Char) : Bool := c.isAlphanum || c == '-' || c == '+' || c == '.'

/-- The digits of a text, at least one. -/
def someDigits (s : List Char) : Bool := !s.isEmpty && s.all Char.isDigit

/-- The exponent of a number, or nothing. -/
def isExponent : List Char → Bool
  | [] => Bool.true
  | c :: s =>
    (c == 'e' || c == 'E') && match s with
      | '+' :: ds => someDigits ds
      | '-' :: ds => someDigits ds
      | ds => someDigits ds

/-- The fraction and the exponent of a number. -/
def isFraction : List Char → Bool
  | '.' :: s => someDigits (s.takeWhile Char.isDigit) && isExponent (s.dropWhile Char.isDigit)
  | s => isExponent s

/-- A number without its sign: no leading zero before another digit. -/
def isMagnitude (s : List Char) : Bool :=
  let whole := s.takeWhile Char.isDigit
  (whole == ['0'] || (someDigits whole && whole.head? != some '0')) &&
    isFraction (s.dropWhile Char.isDigit)

def isNumber : List Char → Bool
  | '-' :: s => isMagnitude s
  | s => isMagnitude s

def Token.ofWord? (w : List Char) : Option Token :=
  if w = "null".toList then some .null
  else if w = "true".toList then some .true
  else if w = "false".toList then some .false
  else if isNumber w then some (.number (String.ofList w))
  else none

/-- The character that a one-letter escape stands for. -/
def escape? (c : Char) : Option Char :=
  match c with
  | '"' => some '"'
  | '\\' => some '\\'
  | '/' => some '/'
  | 'b' => some '\x08'
  | 'f' => some '\x0c'
  | 'n' => some '\n'
  | 'r' => some '\r'
  | 't' => some '\t'
  | _ => none

/-- The state after a complete unit of a `\u` escape. -/
def Lexer.afterUnit? (read : List Char) (u : Nat) : Option Nat → Option Lexer
  | none =>
    if 0xD800 ≤ u ∧ u < 0xDC00 then some (.half read u)
    else (Text.ofCodePoint? u).map fun c => .inString (c :: read)
  | some h =>
    if 0xDC00 ≤ u ∧ u < 0xE000 then
      (Text.ofCodePoint? (0x10000 + (h - 0xD800) * 0x400 + (u - 0xDC00))).map fun c => .inString (c :: read)
    else none

def Lexer.punctuation? (c : Char) : Option (List Token × Lexer) :=
  match c with
  | '[' => some ([.openArray], .between)
  | ']' => some ([.closeArray], .between)
  | '\x7b' => some ([.openObject], .between)
  | '\x7d' => some ([.closeObject], .between)
  | ',' => some ([.comma], .between)
  | ':' => some ([.colon], .between)
  | '"' => some ([], .inString [])
  | c => if isJsonBlank c then some ([], .between)
    else if isWordPart c then some ([], .inWord [c]) else none

/-- One character: the tokens it completes, and the state after it. -/
def Lexer.step? : Lexer → Char → Option (List Token × Lexer)
  | between, c => punctuation? c
  | inString read, c =>
    if c = '"' then some ([.string (String.ofList read.reverse)], between)
    else if c = '\\' then some ([], escaped read)
    else if c.toNat < 0x20 then none
    else some ([], inString (c :: read))
  | escaped read, c =>
    if c = 'u' then some ([], unit read 0 4 none)
    else (escape? c).map fun e => ([], inString (e :: read))
  | unit read value missing high, c =>
    match Number.digitValue? 16 c with
    | none => none
    | some d =>
      if missing ≤ 1 then (afterUnit? read (value * 16 + d) high).map ([], ·)
      else some ([], unit read (value * 16 + d) (missing - 1) high)
  | half read high, c => if c = '\\' then some ([], halfEscaped read high) else none
  | halfEscaped read high, c => if c = 'u' then some ([], unit read 0 4 (some high)) else none
  | inWord read, c =>
    if isWordPart c then some ([], inWord (c :: read))
    else match Token.ofWord? read.reverse, punctuation? c with
      | some t, some (ts, l) => some (t :: ts, l)
      | _, _ => none

/-- The tokens of a text, read from a state. -/
def Lexer.run? : Lexer → List Char → Option (List Token)
  | between, [] => some []
  | inWord read, [] => (Token.ofWord? read.reverse).map ([·])
  | _, [] => none
  | l, c :: cs =>
    match l.step? c with
    | some (ts, l') => (l'.run? cs).map (ts ++ ·)
    | none => none

end Progression.Json
