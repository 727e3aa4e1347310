import Progression.Unlocking

/-!
Runs: every class is unlocked, then the gatherers and the crafters are leveled. A class is leveled
in rounds. A round pursues an objective if one can be taken, then hands over an order if one
applies, and the leveling of the class ends with the first round that leaves its level as it was.
A failed unlock ends the run; a class that cannot be leveled is recorded, and the run goes on.
-/

namespace Progression

open Progression.Number (text)

/-- What a run needs besides the game. -/
structure Plan (σ : Type) extends Setup σ where
  tables : Tables
  goals : Goals

namespace Plan

variable {σ : Type} (p : Plan σ)

def submit (item : ItemId) (amount : UInt32) (j : Job) : Act σ Bool :=
  p.host.attempt (.order [Order.new item amount j])

def levels : List Job → Act σ (List (Job × UInt32))
  | [] => return []
  | j :: js => do
    let n ← p.level j
    return (j, n) :: (← levels js)

/-- Reads the level of every class again, and publishes it. -/
def refreshTargets : Act σ Unit := do
  let levels ← p.levels Job.all
  modify fun s => { s with targets := levels.map fun (j, n) => ⟨j, n, p.goals.target j⟩ }
  Act.publishLevels levels

/-! ### Objectives -/

/-- What an objective asks for, procured; the answer is whether it is there. -/
def procure (j : Job) (o : Objective) : Act σ Bool := do
  if !o.hasDeliverable then return true
  let have_ : UInt32 ← p.host.look (.count o.deliverable .any)
  if o.count ≤ have_ then return true
  p.submit o.deliverable (o.count - have_) j

/-- An objective acquired unless it is held; the answer is whether it is. -/
def acquireObjective (o : Objective) : Act σ Bool := do
  if ← p.isHeld o.id then return true
  match ← p.interact .acquire (p.request o.actor o.id o.zone o.place) with
  | .succeeded => return true
  | .cancelled => Act.fail .cancelled
  | _ => return false

/-- Procures, acquires and delivers. What fails is left. -/
def pursue (j : Job) (o : Objective) : Act σ Unit := do
  Act.publishDirective "Objective" (text o.id.toNat ++ " for " ++ j.title)
  if !(← p.procure j o) then return
  if !(← p.acquireObjective o) then return
  match ← p.interact .deliver (p.request o.actor o.id o.zone o.place) with
  | .cancelled => Act.fail .cancelled
  | _ => return

/-! ### Leveling a class -/

/-- Hands over the order of an entry; the answer is whether it was carried out. -/
def grind (j : Job) (g : Grind) : Act σ Bool := do
  Act.publishDirective "Grinding"
    (text g.item.toNat ++ " x" ++ text g.amount.toNat ++ " for " ++ j.title)
  p.submit g.item g.amount j

def pursueAny (j : Job) : Option Objective → Act σ Unit
  | none => return
  | some o => p.pursue j o

/-- Hands over the order of an entry if there is one; the answer is how leveling ends if that
fails. -/
def grindAny (j : Job) : Option Grind → Act σ (Option LevelingOutcome)
  | none => return none
  | some g => do
    if ← p.grind j g then return none
    return some (.orderFailed g.item g.amount)

/-- One round at a level; the answer is how leveling ends, if it ends with this round. -/
def levelRound (j : Job) (before : UInt32) : Act σ (Option LevelingOutcome) := do
  let objective ← Objective.firstEligible? p.host.look before (p.tables.objectivesFor j)
  let grind := p.tables.bestGrind? j before
  if objective.isNone && grind.isNone then return some (.noProgress before)
  p.pursueAny j objective
  match ← p.grindAny j grind with
  | some outcome => return some outcome
  | none =>
    p.refreshTargets
    let after ← p.level j
    return if after = before then some (.stalled after) else none

/-- Rounds until the leveling of a class ends; the answer is how, and after how many rounds. -/
def levelFrom (j : Job) (goal : UInt32) (iterations : Nat) : Nat → Act σ (LevelingOutcome × Nat)
  | 0 => do
    Act.check
    throw .endless
  | n + 1 => do
    Act.check
    let before ← p.level j
    if goal ≤ before then return (.reached before, iterations)
    Act.note (.round j before)
    match ← p.levelRound j before with
    | some outcome => return (outcome, iterations + 1)
    | none => levelFrom j goal (iterations + 1) n

/-- Levels a class up to its goal, or as far as it goes. -/
def levelClass (phase : Phase) (j : Job) : Act σ ClassRun := do
  let start ← p.level j
  let goal := p.goals.target j
  let ends (outcome : LevelingOutcome) : ClassRun := ⟨j, phase, start, start, 0, outcome⟩
  if start = 0 then return ends .notUnlocked
  if goal ≤ start then return ends (.reached start)
  Act.publishDirective "Leveling"
    (j.title ++ " " ++ text start.toNat ++ " -> " ++ text goal.toNat)
  if !(← p.switchAndEquip j) then return ends .switchFailed
  let (outcome, iterations) ← p.levelFrom j goal 0 p.rounds
  let endLevel ← p.level j
  return ⟨j, phase, start, endLevel, iterations, outcome⟩

/-! ### Phases -/

/-- Unlocks every class of the table that is not unlocked yet. -/
def unlockAll : List Unlock → Act σ Unit
  | [] => return
  | u :: us => do
    Act.check
    if !p.goals.isSkipped u.job then
      let level ← p.level u.job
      if level = 0 then
        Act.publishDirective "Unlocking" u.job.title
        let report ← p.unlock u
        p.refreshTargets
        modify fun s =>
          { s with summary := { s.summary with unlocked := s.summary.unlocked ++ [report] } }
    unlockAll us

def levelGroup (phase : Phase) : List Job → Act σ Unit
  | [] => return
  | j :: js => do
    Act.check
    if !p.goals.isSkipped j then
      let run ← p.levelClass phase j
      modify fun s => { s with summary := { s.summary with classes := s.summary.classes ++ [run] } }
    levelGroup phase js

def runPhase : Phase → Act σ PhaseOutcome
  | .unlockAll => do
    p.unlockAll p.tables.unlocks
    return .completed
  | .levelGatherers => do
    p.levelGroup .levelGatherers Job.gatherers
    return .completed
  | .levelCrafters => do
    p.levelGroup .levelCrafters Job.crafters
    return .completed
  | .levelToCap => return .unimplemented

def runPhases : List Phase → Act σ Unit
  | [] => return
  | phase :: phases => do
    Act.check
    Act.publishDirective phase.title ""
    let outcome ← p.runPhase phase
    modify fun s =>
      { s with summary := { s.summary with phases := s.summary.phases ++ [(phase, outcome)] } }
    runPhases phases

/-- A whole run, under an identifier. -/
def run (id : String) : Act σ Summary := do
  modify fun s => { s with summary := {}, status := s.status.setRun id }
  p.refreshTargets
  p.runPhases Phase.all
  modify fun s => { s with summary := { s.summary with finished := true } }
  Act.publishDirective "Done" ""
  return (← get).summary

end Plan
end Progression
