import Progression.Number.Literal
import Progression.Text.Blank
import Progression.Text.Search

/-!
Places in a zone: three coordinates of single precision, kept as bit patterns, so that two
positions are equal exactly when they are written alike.
-/

namespace Progression

open Progression.Text Progression.Number

/-- A number of single precision. -/
structure Single where
  bits : UInt32
  deriving DecidableEq, Repr, Inhabited

namespace Single

def zero : Single := ⟨0⟩

def ofLiteral (l : Literal) : Single := ⟨UInt32.ofNat (single.ofLiteral l)⟩

def read? (s : List Char) : Option Single := (Literal.read? s).map ofLiteral

/-- The text of a number in positional notation. -/
def text (v : Single) : String := single.positional v.bits.toNat

def value (v : Single) : Float32 := Float32.ofBits v.bits

def ofValue (x : Float32) : Single := ⟨x.toBits⟩

end Single

/-- A place in a zone. -/
structure Position where
  x : Single
  y : Single
  z : Single
  deriving DecidableEq, Repr, Inhabited

/-- Why a text is no position. -/
inductive PositionFault where
  /-- The text is not three parts divided by commas. -/
  | parts (text : String)
  | blank
  | literal (part : String)
  deriving DecidableEq, Repr

def PositionFault.message : PositionFault → String
  | parts s => "expected 'x, y, z', got '" ++ s ++ "'"
  | blank => "invalid coordinate '': cannot parse float from empty string"
  | literal part => "invalid coordinate '" ++ part ++ "': invalid float literal"

namespace Position

def origin : Position := ⟨.zero, .zero, .zero⟩

def coordinate? (part : List Char) : Except PositionFault Single :=
  match Single.read? part with
  | some v => .ok v
  | none => .error (if part.isEmpty then .blank else .literal (String.ofList part))

/-- The position a text gives: three numbers between commas, blanks around them allowed. -/
def read (s : String) : Except PositionFault Position :=
  match (divide ',' s.toList).map trim with
  | [a, b, c] => do
    let x ← coordinate? a
    let y ← coordinate? b
    let z ← coordinate? c
    return ⟨x, y, z⟩
  | _ => .error (.parts s)

def text (p : Position) : String := p.x.text ++ ", " ++ p.y.text ++ ", " ++ p.z.text

/-- The straight distance, in single precision. -/
def distance (p q : Position) : Single :=
  let dx := p.x.value - q.x.value
  let dy := p.y.value - q.y.value
  let dz := p.z.value - q.z.value
  .ofValue (dx * dx + dy * dy + dz * dz).sqrt

end Position
end Progression
