/-!
Whole numbers as text: decimal digits, and the reading of digits in a radix up to 36 with a
bound on the value.
-/

namespace Progression.Number

def digitChar (d : Nat) : Char := Char.ofNat (48 + d)

/-- The decimal digits of a number, without leading zeros. -/
def decimal (n : Nat) : List Char :=
  if n < 10 then [digitChar n] else decimal (n / 10) ++ [digitChar (n % 10)]

def text (n : Nat) : String := String.ofList (decimal n)

/-- The value of a digit of the radix; letters of either case stand for ten and above. -/
def digitValue? (radix : Nat) (c : Char) : Option Nat :=
  let v :=
    if c.isDigit then c.toNat - 48
    else if c.isLower then c.toNat - 87
    else if c.isUpper then c.toNat - 55
    else radix
  if v < radix then some v else none

/-- The number that follows `acc` when the digits of a text are appended to it. -/
def extend? (radix : Nat) : Nat → List Char → Option Nat
  | acc, [] => some acc
  | acc, c :: cs =>
    match digitValue? radix c with
    | some d => extend? radix (acc * radix + d) cs
    | none => none

/-- The value of a non-empty text of digits. -/
def digits? (radix : Nat) (s : List Char) : Option Nat :=
  if s.isEmpty then none else extend? radix 0 s

/-- A non-empty text of digits, after a plus sign or none, with a value below `limit`. -/
def unsigned? (radix limit : Nat) (s : List Char) : Option Nat :=
  let body := match s with
    | '+' :: rest => rest
    | _ => s
  (digits? radix body).filter (· < limit)

/-- A number of 32 bits. -/
def word32? (radix : Nat) (s : List Char) : Option UInt32 :=
  (unsigned? radix UInt32.size s).map UInt32.ofNat

/-- A number of 64 bits. -/
def word64? (radix : Nat) (s : List Char) : Option UInt64 :=
  (unsigned? radix UInt64.size s).map UInt64.ofNat

end Progression.Number
