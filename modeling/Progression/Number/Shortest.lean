import Progression.Number.Binary
import Progression.Number.Digits

/-!
The shortest decimal that reads back as a given floating-point number, and the two ways it is
written: always positional, or with an exponent when the number is very large or very small.

A decimal reads back exactly when it lies in the interval of reals that round to the number. The
interval reaches half way to either neighbour, ends included when the significand is even. If a
grid of decimals meets the interval, one of the two grid points next to the number itself is in
it, so only those are tried, on ever finer grids.
-/

namespace Progression.Number

/-- A decimal magnitude, `digits * 10 ^ exponent`. -/
structure Decimal where
  digits : Nat
  exponent : Int
  deriving Repr, DecidableEq

/-- The interval of reals that round to a number: the number and the distances to the two ends,
over one denominator. -/
structure Basin where
  value : Nat
  below : Nat
  above : Nat
  den : Nat
  closed : Bool

/-- The basin of a positive finite pattern. The gap below a power of two is half the gap above,
except at the lowest exponent. -/
def Binary.basin (f : Binary) (bits : Nat) : Basin :=
  let d := f.unpack bits
  let hidden := Nat.pow 2 (f.precision - 1)
  let narrow := d.significand = hidden && f.lowest < d.exponent
  let scale := Nat.pow 2 d.exponent.toNat
  { value := 4 * d.significand * scale
    below := (if narrow then 1 else 2) * scale
    above := 2 * scale
    den := 4 * Nat.pow 2 (-d.exponent).toNat
    closed := d.significand % 2 == 0 }

namespace Basin

variable (b : Basin)

/-- Whether the decimal `n * 10 ^ e` lies in the basin. -/
def holds (n : Nat) (e : Int) : Bool :=
  let up := Nat.pow 10 e.toNat
  let down := Nat.pow 10 (-e).toNat
  let x := n * up * b.den
  let lo := (b.value - b.below) * down
  let hi := (b.value + b.above) * down
  if b.closed then lo ≤ x && x ≤ hi else lo < x && x < hi

/-- The better of the two neighbours of the number on the grid of multiples of `10 ^ e`: one that
reads back, and of two the nearer one. -/
def onGrid? (e : Int) : Option Nat :=
  let up := Nat.pow 10 e.toNat
  let down := Nat.pow 10 (-e).toNat
  let num := b.value * down
  let den := b.den * up
  let n := num / den
  match b.holds n e && n ≠ 0, b.holds (n + 1) e with
  | true, true => some (roundDiv num den)
  | true, false => some n
  | false, true => some (n + 1)
  | false, false => none

/-- The first grid, from `10 ^ e` down through `n` finer ones, that meets the basin. -/
def search (e : Int) : Nat → Option Decimal
  | 0 => none
  | n + 1 =>
    match b.onGrid? e with
    | some d => some ⟨d, e⟩
    | none => search (e - 1) n

end Basin

/-- The shortest decimal that reads back as a positive finite pattern, nearest to it of those. -/
def Binary.shortest (f : Binary) (bits : Nat) : Decimal :=
  let b := f.basin bits
  let top : Int := (decimal (b.value / b.den)).length
  let start : Int := if b.value / b.den = 0 then -(decimal (b.den / b.value)).length + 1 else top
  (b.search start 40).getD ⟨0, 0⟩

def zeros (n : Int) : List Char := List.replicate n.toNat '0'

/-- A decimal in positional notation, without a point when it is whole. -/
def Decimal.positional (d : Decimal) : List Char :=
  let ds := decimal d.digits
  let point : Int := ds.length + d.exponent
  if 0 ≤ d.exponent then ds ++ zeros d.exponent
  else if 0 < point then ds.take point.toNat ++ '.' :: ds.drop point.toNat
  else '0' :: '.' :: zeros (-point) ++ ds

/-- How numbers are written where an exponent may be used: the largest place of the point, and
the least, at which notation stays positional. -/
structure Spread where
  largest : Int
  least : Int

/-- A decimal in positional notation with a fraction of at least one digit, or, outside the
bounds, as a digit, a fraction if there are more digits, and an exponent. -/
def Decimal.scientific (n : Spread) (d : Decimal) : List Char :=
  let ds := decimal d.digits
  let point : Int := ds.length + d.exponent
  if 0 ≤ d.exponent ∧ point ≤ n.largest then ds ++ zeros d.exponent ++ ['.', '0']
  else if 0 < point ∧ point ≤ n.largest then ds.take point.toNat ++ '.' :: ds.drop point.toNat
  else if n.least < point ∧ point ≤ 0 then '0' :: '.' :: zeros (-point) ++ ds
  else
    let e := point - 1
    let mantissa := match ds with
      | [c] => [c]
      | c :: cs => c :: '.' :: cs
      | [] => []
    mantissa ++ 'e' :: (if e < 0 then '-' :: decimal (-e).toNat else decimal e.toNat)

end Progression.Number
