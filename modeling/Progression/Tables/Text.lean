import Progression.Config.Text
import Progression.Tables

/-!
The tables as a document. The objectives are listed under the names of their classes, in the order
of the classes; of two lists for one class the second counts.
-/

namespace Progression

open Document (number)

def Position.ofYaml? (v : Yaml) : Option Position := do
  match ← v.record? ["x", "y", "z"] with
  | [x, y, z] =>
    return ⟨← (← x).single?, ← (← y).single?, ← (← z).single?⟩
  | _ => none

namespace Unlock

def fieldNames : List String :=
  ["class", "zone", "prereq_objective", "unlock_objective", "pickup_actor", "pickup_location",
    "turn_in_actor", "turn_in_location"]

/-- The entry, written. -/
def write {α : Type} [Document α] (u : Unlock) : α :=
  Document.record (fieldNames.zip
    [Document.job u.job, number u.zone.toNat, number u.prerequisite.toNat,
      number u.objective.toNat, number u.pickupActor.toNat, Document.position u.pickupPlace,
      number u.turnInActor.toNat, Document.position u.turnInPlace])

def ofYaml? (v : Yaml) : Option Unlock := do
  match ← v.record? fieldNames with
  | [job, zone, prerequisite, objective, pickupActor, pickupPlace, turnInActor, turnInPlace] =>
    return {
      job := ← Job.ofYaml? (← job)
      zone := ← (← zone).word32?
      prerequisite := ← (← prerequisite).word32?
      objective := ← (← objective).word32?
      pickupActor := ← (← pickupActor).word32?
      pickupPlace := ← Position.ofYaml? (← pickupPlace)
      turnInActor := ← (← turnInActor).word32?
      turnInPlace := ← Position.ofYaml? (← turnInPlace) }
  | _ => none

end Unlock

namespace Grind

def fieldNames : List String := ["class", "min_level", "item", "amount"]

/-- The entry, written. -/
def write {α : Type} [Document α] (g : Grind) : α :=
  Document.record (fieldNames.zip
    [Document.job g.job, number g.level.toNat, number g.item.toNat, number g.amount.toNat])

def ofYaml? (v : Yaml) : Option Grind := do
  match ← v.record? fieldNames with
  | [job, level, item, amount] =>
    return {
      job := ← Job.ofYaml? (← job)
      level := ← (← level).word32?
      item := ← (← item).word32?
      amount := ← (← amount).word32? }
  | _ => none

end Grind

namespace Objective

def fieldNames : List String :=
  ["objective", "prerequisite", "required_level", "actor", "zone", "location", "deliverable",
    "deliverable_count"]

/-- The entry, written. -/
def write {α : Type} [Document α] (o : Objective) : α :=
  Document.record (fieldNames.zip
    [number o.id.toNat, number o.prerequisite.toNat, number o.level.toNat, number o.actor.toNat,
      number o.zone.toNat, Document.position o.place, number o.deliverable.toNat,
      number o.count.toNat])

/-- The entry that a node gives. The prerequisite and what is to be handed over may be missing. -/
def ofYaml? (v : Yaml) : Option Objective := do
  match ← v.record? fieldNames with
  | [id, prerequisite, level, actor, zone, place, deliverable, count] =>
    return {
      id := ← (← id).word32?
      prerequisite := ← Yaml.optional 0 Yaml.word32? prerequisite
      level := ← (← level).word32?
      actor := ← (← actor).word32?
      zone := ← (← zone).word32?
      place := ← Position.ofYaml? (← place)
      deliverable := ← Yaml.optional 0 Yaml.word32? deliverable
      count := ← Yaml.optional 0 Yaml.word32? count }
  | _ => none

end Objective

namespace Tables

def fieldNames : List String := ["unlocks", "grinds", "objectives"]

/-- The tables, written. -/
def write {α : Type} [Document α] (t : Tables) : α :=
  Document.record (fieldNames.zip
    [Document.list (t.unlocks.map Unlock.write), Document.list (t.grinds.map Grind.write),
      Document.record (t.objectives.map fun (j, os) =>
        (j.name, Document.list (os.map Objective.write)))])

def listOfYaml? {α : Type} (read : Yaml → Option α) (v : Yaml) : Option (List α) := do
  (← v.items?).mapM read

def objectivesOfYaml? (v : Yaml) : Option (List (Job × List Objective)) := do
  let lists ← (← v.entries?).mapM fun (k, v) => do
    return (← Job.ofYaml? k, ← listOfYaml? Objective.ofYaml? v)
  return Job.all.filterMap fun j => (lists.reverse.lookup j).map (j, ·)

def ofYaml? (v : Yaml) : Option Tables := do
  match ← v.record? fieldNames with
  | [unlocks, grinds, objectives] =>
    return {
      unlocks := ← Yaml.optional [] (listOfYaml? Unlock.ofYaml?) unlocks
      grinds := ← Yaml.optional [] (listOfYaml? Grind.ofYaml?) grinds
      objectives := ← Yaml.optional [] objectivesOfYaml? objectives }
  | _ => none

/-- The tables that a text gives, if they do not contradict themselves. -/
def read (text : String) : Except Error Tables :=
  match (Yaml.read? text).bind ofYaml? with
  | some t => t.checked
  | none => .error .yaml

def text (t : Tables) : String := Yaml.render t.write

def load (files : Tree) (path : String) : Except Error Tables :=
  match files.read path.toList with
  | .ok text => read text
  | .error e => .error (.file e)

end Tables
end Progression
