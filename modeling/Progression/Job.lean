import Progression.Text.Blank
import Progression.Text.Search

/-!
The classes a character can level: eight crafters and three gatherers, in the order in which every
table and report lists them.
-/

namespace Progression

open Progression.Text

/-- Identifiers of the game's records. -/
abbrev ObjectiveId := UInt32
/-- Identifiers of actors. -/
abbrev ActorId := UInt32
/-- Identifiers of zones. -/
abbrev ZoneId := UInt32
/-- Identifiers of items. -/
abbrev ItemId := UInt32

/-- A class of the character. -/
inductive Job where
  | carpenter | blacksmith | armorer | goldsmith | leatherworker | weaver | alchemist | culinarian
  | miner | botanist | fisher
  deriving DecidableEq, Repr, Inhabited

namespace Job

/-- Every class, crafters first. -/
def all : List Job :=
  [carpenter, blacksmith, armorer, goldsmith, leatherworker, weaver, alchemist, culinarian,
    miner, botanist, fisher]

def gatherers : List Job := [miner, botanist, fisher]

def crafters : List Job :=
  [carpenter, blacksmith, armorer, goldsmith, leatherworker, weaver, alchemist, culinarian]

def isGatherer : Job → Bool
  | miner | botanist | fisher => true
  | _ => false

/-- The place of a class in `all`. -/
def index : Job → Nat
  | carpenter => 0 | blacksmith => 1 | armorer => 2 | goldsmith => 3 | leatherworker => 4
  | weaver => 5 | alchemist => 6 | culinarian => 7 | miner => 8 | botanist => 9 | fisher => 10

def name : Job → String
  | carpenter => "carpenter" | blacksmith => "blacksmith" | armorer => "armorer"
  | goldsmith => "goldsmith" | leatherworker => "leatherworker" | weaver => "weaver"
  | alchemist => "alchemist" | culinarian => "culinarian" | miner => "miner"
  | botanist => "botanist" | fisher => "fisher"

def title : Job → String
  | carpenter => "Carpenter" | blacksmith => "Blacksmith" | armorer => "Armorer"
  | goldsmith => "Goldsmith" | leatherworker => "Leatherworker" | weaver => "Weaver"
  | alchemist => "Alchemist" | culinarian => "Culinarian" | miner => "Miner"
  | botanist => "Botanist" | fisher => "Fisher"

/-- The kind of order a class works off: one kind for all gatherers, one for each crafter. -/
def orderType (j : Job) : String := if j.isGatherer then "Gather" else j.title

/-- The class with a given name in files. -/
def ofName? (s : List Char) : Option Job := all.find? fun j => j.name.toList = s

/-- A mark that may stand before the name of a class. -/
def mark : List Char := "ClassJobType.".toList

/-- The class a text names: blanks at the ends, one mark, and the case of letters do not matter. -/
def parse? (s : List Char) : Option Job :=
  let word := trim s
  ofName? (lower ((after? mark word).getD word))

theorem mem_all (j : Job) : j ∈ all := by cases j <;> decide

theorem ofName?_name (j : Job) : ofName? j.name.toList = some j := by cases j <;> decide

end Job
end Progression
