import Progression.Cli.Report
import Progression.Config.Text
import Progression.Tables.Text

/-!
What the leveling of a class would do next, told from the tables alone: the journal holds nothing,
and a given set of objectives is completed.
-/

namespace Progression.Cli

open Progression.Number (text)

/-- A journal in which a set of objectives is completed, and nothing else is there. -/
def completedOnly (completed : List ObjectiveId) : Oracle Id
  | .completed id => completed.contains id
  | .held _ => false
  | .stage _ => 0
  | .count _ _ => 0
  | .level _ => 0
  | .activeJob => none
  | .isOpen _ => false
  | .actor _ => none

/-- What the leveling of a class would do. -/
structure Preview where
  job : Job
  level : UInt32
  target : UInt32
  unlock : Option Unlock
  grind : Option Grind
  /-- The objectives that can be taken, in the order of the table. -/
  eligible : List Objective
  deriving DecidableEq, Repr

namespace Preview

/-- The preview for a class at a level. -/
def make (goals : Goals) (t : Tables) (j : Job) (level : UInt32) (completed : List ObjectiveId) :
    Preview :=
  { job := j, level, target := goals.target j, unlock := t.unlockFor? j
    grind := t.bestGrind? j level
    eligible := (t.objectivesFor j).filter fun o => o.isEligible (completedOnly completed) level }

variable (p : Preview)

def next : Option Objective := p.eligible.head?

def isStuck : Bool := p.grind.isNone && p.next.isNone

def toJson : Json :=
  .object [("class", Document.job p.job), ("level", .ofNat p.level.toNat),
    ("target_level", .ofNat p.target.toNat), ("unlock", Document.optional Unlock.write p.unlock),
    ("grind", Document.optional Grind.write p.grind),
    ("next_objective", Document.optional Objective.write p.next),
    ("eligible_objectives", .array (p.eligible.map Objective.write))]

def row (o : Objective) : List String :=
  [text o.id.toNat, text o.level.toNat, text o.actor.toNat, text o.zone.toNat,
    if o.hasDeliverable then text o.deliverable.toNat ++ " x" ++ text o.count.toNat else "-"]

def lines : List String :=
  [p.job.title ++ " at level " ++ text p.level.toNat ++ " (target " ++ text p.target.toNat ++ ")"]
  ++ (if p.target ≤ p.level then ["Target already reached; the leveling loop would not run."]
    else [])
  ++ [match p.grind with
    | some g => "Grind: item " ++ text g.item.toNat ++ " x" ++ text g.amount.toNat
      ++ " (entry for level " ++ text g.level.toNat ++ "+)"
    | none => "Grind: none applies at this level"]
  ++ (if p.eligible.isEmpty then ["Objectives: none eligible"]
    else "" :: tableLines ["OBJECTIVE", "LEVEL", "ACTOR", "ZONE", "DELIVER"] (p.eligible.map row))
  ++ (if p.isStuck && p.level < p.target then
    ["", "No progress possible: the loop would stop immediately."] else [])

end Preview

/-- The words for a configuration that cannot be loaded. -/
def configFailure (path : String) (e : Error) : String :=
  "failed to load config from " ++ path ++ ": " ++ e.message

/-- The configuration of a command; without it there is nothing but a failure. -/
def withConfig (files : Tree) (path : String) (command : Config → Report) : Report :=
  match Config.loadOrDefault files path with
  | .ok c => command c
  | .error e => .failed (configFailure path e)

def plan (files : Tree) (config tables job : String) (level : UInt32)
    (completed : List ObjectiveId) (json : Bool) : Report :=
  withConfig files config fun c =>
    match Tables.load files tables with
    | .error e => .failed ("failed to load tables from " ++ tables ++ ": " ++ e.message)
    | .ok t =>
      match Job.read job with
      | .error e => .failed e.message
      | .ok j =>
        let p := Preview.make c.goals t j level completed
        if json then .ofJson p.toJson else .ofLines p.lines

end Progression.Cli
