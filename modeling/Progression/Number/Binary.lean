/-!
Binary floating-point numbers as bit patterns: rounding of a quotient to the nearest pattern,
and the pattern read back as a multiple of a power of two. All arithmetic is exact.
-/

namespace Progression.Number

/-- The quotient rounded to the nearest whole number, a half going to the even neighbour. -/
def roundDiv (num den : Nat) : Nat :=
  let q := num / den
  let r := num % den
  if 2 * r > den || (2 * r == den && q % 2 == 1) then q + 1 else q

/-- A binary interchange format: the bits of a significand, its hidden bit included, the exponent
of the last place of the smallest number, and the pattern of infinity. -/
structure Binary where
  precision : Nat
  lowest : Int
  infinity : Nat
  deriving Repr, DecidableEq

/-- The format of 32 bits. -/
def single : Binary := ⟨24, -149, 0x7F800000⟩

/-- The format of 64 bits. -/
def double : Binary := ⟨53, -1074, 0x7FF0000000000000⟩

/-- A finite magnitude, `significand * 2 ^ exponent`. -/
structure Dyadic where
  significand : Nat
  exponent : Int
  deriving Repr, DecidableEq

namespace Dyadic

/-- Numerator of the magnitude as a quotient of whole numbers. -/
def num (d : Dyadic) : Nat := d.significand * Nat.pow 2 d.exponent.toNat

/-- Denominator of the magnitude as a quotient of whole numbers. -/
def den (d : Dyadic) : Nat := Nat.pow 2 (-d.exponent).toNat

end Dyadic

namespace Binary

variable (f : Binary)

/-- The pattern of a significand at an exponent. A significand one place too long carries into
the exponent; a result past the largest number is infinity. -/
def pack (significand : Nat) (exponent : Int) : Nat :=
  let hidden := Nat.pow 2 (f.precision - 1)
  let bits :=
    if significand < hidden then significand
    else ((exponent - f.lowest).toNat + 1) * hidden + (significand - hidden)
  min bits f.infinity

/-- Whether `2 ^ e ≤ num / den`. -/
def powLe (e : Int) (num den : Nat) : Bool :=
  Nat.pow 2 e.toNat * den ≤ num * Nat.pow 2 (-e).toNat

/-- The exponent of the leading bit of a positive quotient. -/
def leading (num den : Nat) : Int :=
  let guess : Int := (num.log2 : Int) - (den.log2 : Int)
  if powLe guess num den then guess else guess - 1

/-- The pattern nearest to a quotient, ties to the even significand. -/
def round (num den : Nat) : Nat :=
  if num = 0 then 0
  else
    let q := max (leading num den - (f.precision - 1 : Nat)) f.lowest
    f.pack (roundDiv (num * Nat.pow 2 (-q).toNat) (den * Nat.pow 2 q.toNat)) q

/-- The sign bit. -/
def signBit : Nat := f.infinity + Nat.pow 2 (f.precision - 1)

def unpack (bits : Nat) : Dyadic :=
  let hidden := Nat.pow 2 (f.precision - 1)
  let e := bits / hidden
  if e = 0 then ⟨bits, f.lowest⟩ else ⟨bits % hidden + hidden, f.lowest + (e - 1 : Nat)⟩

end Binary
end Progression.Number
