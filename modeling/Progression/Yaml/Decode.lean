import Progression.Number.Literal
import Progression.Position
import Progression.Yaml.Basic

/-!
Values from YAML nodes. What is nothing stands for an empty sequence and for an empty mapping.
Numbers are read from plain scalars only; strings from every scalar.
-/

namespace Progression.Yaml

open Progression.Number Progression.Text

def isNothing : Yaml → Bool
  | scalar .plain _ text => text = ""
  | _ => false

def items? : Yaml → Option (List Yaml)
  | sequence items => some items
  | v => if v.isNothing then some [] else none

def entries? : Yaml → Option (List (Yaml × Yaml))
  | mapping entries => some entries
  | v => if v.isNothing then some [] else none

def string? : Yaml → Option String
  | scalar _ _ text => some text
  | _ => none

/-- The text of a scalar that may be read as a number: a plain one, or a block with the tag for
it. -/
def numeral? (kind : String) : Yaml → Option (List Char)
  | scalar .plain _ text => some text.toList
  | scalar .literal (some tag) text =>
    if tag = "tag:yaml.org,2002:" ++ kind then some text.toList else none
  | _ => none

/-- The text without a first plus sign. -/
def unsignedPart : List Char → List Char
  | '+' :: s => s
  | s => s

/-- Whether a text begins with a sign. -/
def isSigned : List Char → Bool
  | c :: _ => c == '+' || c == '-'
  | [] => false

/-- Whether a text is a sign or none, a zero and further digits, which is no number. -/
def isPadded (s : List Char) : Bool :=
  let body := if isSigned s then s.drop 1 else s
  match body with
  | '0' :: ds => !ds.isEmpty && ds.all isAsciiDigit
  | _ => false

/-- A whole number below a limit: in hexadecimal, octal or binary after `0x`, `0o` or `0b`, else
in decimal without zeros in front. -/
def natural? (limit : Nat) (s : List Char) : Option Nat :=
  let body := unsignedPart s
  let radix (mark : String) (r : Nat) : Option Nat :=
    match after? mark.toList body with
    | some ds => (digits? r ds).filter (· < limit)
    | none => none
  radix "0x" 16 <|> radix "0o" 8 <|> radix "0b" 2 <|>
    if isPadded s then none else (digits? 10 body).filter (· < limit)

/-- A number of 32 bits. -/
def word32? (v : Yaml) : Option UInt32 :=
  ((v.numeral? "int").bind (natural? UInt64.size)).bind fun n =>
    if n < UInt32.size then some (.ofNat n) else none

/-- A number of 64 bits. -/
def word64? (v : Yaml) : Option UInt64 :=
  ((v.numeral? "int").bind (natural? UInt64.size)).map .ofNat

/-- The pattern of a number of double precision; words with a point before them stand for infinity
and for no number. -/
def real? (s : List Char) : Option Nat :=
  let word := String.ofList s
  let body := unsignedPart s
  if isSigned body && body.length < s.length then none
  else if [".inf", ".Inf", ".INF"].contains (String.ofList body) then some double.infinity
  else if ["-.inf", "-.Inf", "-.INF"].contains word then some (double.signBit + double.infinity)
  else if [".nan", ".NaN", ".NAN"].contains word then some (double.ofLiteral (.nan false))
  else
    match Literal.read? body with
    | some l =>
      let bits := double.ofLiteral l
      if double.magnitude bits < double.infinity then some bits else none
    | none => none

/-- The pattern of single precision nearest to one of double precision. -/
def narrow (bits : Nat) : Nat :=
  let m := double.magnitude bits
  let sign := if double.isNegative bits then single.signBit else 0
  if double.infinity < m then single.ofLiteral (.nan (double.isNegative bits))
  else if m = double.infinity then sign + single.infinity
  else
    let d := double.unpack m
    sign + single.round d.num d.den

/-- The pattern of a number of single precision, read in double precision first. -/
def single? (v : Yaml) : Option Single :=
  ((v.numeral? "float").bind real?).map fun bits => ⟨.ofNat (narrow bits)⟩

/-- The name of one of several values: a scalar, or a tag of one's own on nothing. -/
def variant? : Yaml → Option String
  | scalar style tag text =>
    match (tag.getD "").toList with
    | '!' :: c :: cs =>
      if style = .plain && ["", "~", "null", "Null", "NULL"].contains text then
        some (String.ofList (c :: cs))
      else none
    | _ => some text
  | _ => none

/-- The values of the fields of a record, where there are any. Every key must be a scalar, and no
field may be given twice; keys that are no field are passed over. -/
def record? (names : List String) (v : Yaml) : Option (List (Option Yaml)) := do
  let entries ← v.entries?
  let fields ← entries.mapM fun (k, v) => do return (← k.string?, v)
  if names.any fun n => 1 < (fields.filter fun f => f.1 = n).length then none
  return names.map fun n => fields.lookup n

def optional {α : Type} (default : α) (read : Yaml → Option α) : Option Yaml → Option α
  | none => some default
  | some v => read v

end Progression.Yaml
