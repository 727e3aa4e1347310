import Progression.Json.Basic

/-!
Records in JSON: values with a fixed list of fields. A record is written as an object, or as an
array of its values in the order of the fields, where values may be missing at the end.
-/

namespace Progression.Json

/-- The value of every field of a record, where there is one. Names that are no field of the
record are passed over. -/
def record? (names : List String) : Json → Option (List (Option Json))
  | object fields => some (names.map (field? · fields))
  | array items =>
    if items.length ≤ names.length then
      some (items.map some ++ List.replicate (names.length - items.length) none)
    else none
  | _ => none

def isUnambiguous (names : List String) : Json → Bool
  | object fields => names.all fun n => (fields.filter fun f => f.1 = n).length ≤ 1
  | _ => true

def optional {α : Type} (default : α) (read : Json → Option α) : Option Json → Option α
  | none => some default
  | some v => read v

def nullable {α : Type} (read : Json → Option α) : Json → Option (Option α)
  | null => some none
  | v => (read v).map some

end Progression.Json
