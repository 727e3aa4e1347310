import Progression.Error
import Progression.Order
import Progression.Json.Reader
import Progression.Json.Record
import Progression.Json.Writer

/-!
Batches of orders and their JSON text. The text of a batch is one order or an array of orders;
it is always written as an array.
-/

namespace Progression

namespace Order

/-- The names of the fields of an order, in the order in which they are written. -/
def fieldNames : List String :=
  ["Id", "Group", "Item", "Amount", "Enabled", "Type", "QuickSynth", "SuborderQuickSynth", "Hq",
    "Food", "Primary", "Manual", "Medicine"]

def toJson (o : Order) : Json :=
  .object (fieldNames.zip
    [.ofNat o.id.toNat, .ofNat o.group.toNat, .ofNat o.item.toNat, .ofNat o.amount.toNat,
      .bool o.enabled, .string o.kind, .bool o.quickSynth, .bool o.suborderQuickSynth, .bool o.hq,
      .ofNat o.food.toNat, .bool o.primary, .ofNat o.manual.toNat, .ofNat o.medicine.toNat])

/-- The order that a JSON value gives. Item, amount and kind cannot be missing. -/
def ofJson? (v : Json) : Option Order := do
  match ← v.record? fieldNames with
  | [id, group, item, amount, enabled, kind, quickSynth, suborderQuickSynth, hq, food, primary,
      manual, medicine] =>
    let number (d : UInt32) := Json.optional d Json.word32?
    let flag (d : Bool) := Json.optional d Json.bool?
    return {
      id := ← number 1 id
      group := ← number 1 group
      item := ← (← item).word32?
      amount := ← (← amount).word32?
      enabled := ← flag true enabled
      kind := ← (← kind).string?
      quickSynth := ← flag false quickSynth
      suborderQuickSynth := ← flag false suborderQuickSynth
      hq := ← flag false hq
      food := ← number 0 food
      primary := ← flag true primary
      manual := ← number 0 manual
      medicine := ← number 0 medicine }
  | _ => none

end Order

/-- Orders that are handed over together. -/
abbrev Batch := List Order

namespace Batch

/-- How deeply the values in the text of a batch may be nested. -/
def depthLimit : Nat := 127

def ofJson? : Json → Option Batch
  | .array items => items.mapM Order.ofJson?
  | v => (Order.ofJson? v).map ([·])

/-- The orders that a text gives. Every number in the text must be finite, those of unknown
fields included. -/
def read? (s : String) : Option Batch := do
  let v ← Json.read? s
  if v.depth ≤ depthLimit ∧ v.isFinite then ofJson? v else none

/-- The orders that a text gives, or the error. -/
def read (s : String) : Except Error Batch :=
  match read? s with
  | some batch => .ok batch
  | none => .error .json

def toJson (batch : Batch) : Json := .array (batch.map Order.toJson)

def text (batch : Batch) : String := batch.toJson.render

/-- Items and amounts, for people. -/
def summary (batch : Batch) : String :=
  ", ".intercalate (batch.map fun o =>
    Number.text o.item.toNat ++ " x" ++ Number.text o.amount.toNat)

end Batch
end Progression
