import Progression.Number.Literal

/-!
JSON values. A number is kept as the literal that spells it, and the fields of an object in the
order in which they stand, repeated names included.
-/

namespace Progression

/-- A JSON value. -/
inductive Json where
  | null
  | bool (value : Bool)
  | number (literal : String)
  | string (value : String)
  | array (items : List Json)
  | object (fields : List (String × Json))
  deriving Repr, Inhabited

namespace Json

def ofNat (n : Nat) : Json := number (Number.text n)

/-- The value of the last field of a name. -/
def field? (name : String) : List (String × Json) → Option Json
  | [] => none
  | (k, v) :: rest => field? name rest <|> if k = name then some v else none

/-- A literal made of digits alone, as a number below `limit`. A literal with a sign, a point or
an exponent is no whole number, whatever its value. -/
def natBelow? (limit : Nat) : Json → Option Nat
  | number s =>
    if s.toList.all Text.isAsciiDigit then (Number.digits? 10 s.toList).filter (· < limit) else none
  | _ => none

/-- A whole number of 32 bits. -/
def word32? (v : Json) : Option UInt32 := (v.natBelow? UInt32.size).map UInt32.ofNat

/-- A whole number of 64 bits. -/
def word64? (v : Json) : Option UInt64 := (v.natBelow? UInt64.size).map UInt64.ofNat

def bool? : Json → Option Bool
  | bool b => some b
  | _ => none

def string? : Json → Option String
  | string s => some s
  | _ => none

mutual

/-- How deeply arrays and objects are nested in a value. -/
def depth : Json → Nat
  | array items => depthOf items + 1
  | object fields => depthOfFields fields + 1
  | _ => 0

/-- The greatest depth of several values. -/
def depthOf : List Json → Nat
  | [] => 0
  | v :: vs => max (depth v) (depthOf vs)

/-- The greatest depth of the values of several fields. -/
def depthOfFields : List (String × Json) → Nat
  | [] => 0
  | (_, v) :: vs => max (depth v) (depthOfFields vs)

end

/-- Whether a literal stands for a finite number of 64 bits. -/
def isFiniteLiteral (s : String) : Bool :=
  match Number.Literal.read? s.toList with
  | some l => Number.double.magnitude (Number.double.ofLiteral l) < Number.double.infinity
  | none => false

mutual

/-- Whether every number in a value is finite. -/
def isFinite : Json → Bool
  | number s => isFiniteLiteral s
  | array items => areFinite items
  | object fields => areFiniteFields fields
  | _ => true

/-- Whether every number in several values is finite. -/
def areFinite : List Json → Bool
  | [] => true
  | v :: vs => isFinite v && areFinite vs

/-- Whether every number in the values of several fields is finite. -/
def areFiniteFields : List (String × Json) → Bool
  | [] => true
  | (_, v) :: vs => isFinite v && areFiniteFields vs

end

end Json
end Progression
