import Progression.Number.Shortest
import Progression.Text.Search

/-!
Floating-point literals: a sign or none, then digits with a point and an exponent, or one of the
words for infinity and for no number, in any case. A finite literal stands for the nearest number
of the format, infinity included.
-/

namespace Progression.Number

open Progression.Text

/-- What a literal says. -/
inductive Literal where
  | finite (negative : Bool) (value : Decimal)
  | infinite (negative : Bool)
  | nan (negative : Bool)
  deriving Repr, DecidableEq

namespace Literal

/-- The exponent part of a literal, which must be all that is left. -/
def exponent? : List Char → Option Int
  | [] => some 0
  | c :: cs =>
    if c = 'e' || c = 'E' then
      match cs with
      | '-' :: ds => if ds.all isAsciiDigit then (digits? 10 ds).map (fun n => -(n : Int)) else none
      | '+' :: ds => if ds.all isAsciiDigit then (digits? 10 ds).map Int.ofNat else none
      | ds => if ds.all isAsciiDigit then (digits? 10 ds).map Int.ofNat else none
    else none

def decimal? (s : List Char) : Option Decimal :=
  let whole := s.takeWhile isAsciiDigit
  let tail := s.dropWhile isAsciiDigit
  let (fraction, tail) := match tail with
    | '.' :: rest => (rest.takeWhile isAsciiDigit, rest.dropWhile isAsciiDigit)
    | _ => ([], tail)
  match digits? 10 (whole ++ fraction), exponent? tail with
  | some n, some e => some ⟨n, e - fraction.length⟩
  | _, _ => none

/-- A literal without its sign. -/
def unsigned? (negative : Bool) (s : List Char) : Option Literal :=
  if sameLetters s "inf".toList || sameLetters s "infinity".toList then some (.infinite negative)
  else if sameLetters s "nan".toList then some (.nan negative)
  else (decimal? s).map (.finite negative)

def read? : List Char → Option Literal
  | '-' :: s => unsigned? true s
  | '+' :: s => unsigned? false s
  | s => unsigned? false s

end Literal

/-- The pattern nearest to a decimal magnitude. Magnitudes far outside every format are decided by
their leading place alone. -/
def Binary.ofDecimal (f : Binary) (d : Decimal) : Nat :=
  let place : Int := d.exponent + (decimal d.digits).length
  if d.digits = 0 || place < -400 then 0
  else if 400 < place then f.infinity
  else f.round (d.digits * Nat.pow 10 d.exponent.toNat) (Nat.pow 10 (-d.exponent).toNat)

/-- The pattern of a literal, sign included. -/
def Binary.ofLiteral (f : Binary) : Literal → Nat
  | .finite negative d => (if negative then f.signBit else 0) + f.ofDecimal d
  | .infinite negative => (if negative then f.signBit else 0) + f.infinity
  | .nan negative => (if negative then f.signBit else 0) + f.infinity + Nat.pow 2 (f.precision - 2)

/-- Whether a pattern is negative, zero included. -/
def Binary.isNegative (f : Binary) (bits : Nat) : Bool := f.signBit ≤ bits

/-- A pattern without its sign. -/
def Binary.magnitude (f : Binary) (bits : Nat) : Nat := bits % f.signBit

/-- A pattern that is no number. -/
def Binary.isNan (f : Binary) (bits : Nat) : Bool := f.infinity < f.magnitude bits

/-- The text of a pattern, always positional: the shortest digits that read back, no point in
whole numbers, a sign on minus zero. -/
def Binary.positional (f : Binary) (bits : Nat) : String :=
  let m := f.magnitude bits
  if f.infinity < m then "NaN"
  else
    let body := if m = f.infinity then "inf".toList
      else if m = 0 then ['0'] else (f.shortest m).positional
    String.ofList (if f.isNegative bits then '-' :: body else body)

/-- The text of a finite pattern that uses an exponent outside the bounds. -/
def Binary.scientific (f : Binary) (n : Spread) (bits : Nat) : String :=
  let m := f.magnitude bits
  let body := if m = 0 then "0.0".toList else (f.shortest m).scientific n
  String.ofList (if f.isNegative bits then '-' :: body else body)

end Progression.Number
