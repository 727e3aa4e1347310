import Progression.Job

/-!
What a run has achieved: phases, unlocked classes, and how far each class was leveled.
-/

namespace Progression

/-- A part of a run. -/
inductive Phase where
  | unlockAll | levelGatherers | levelCrafters | levelToCap
  deriving DecidableEq, Repr

namespace Phase

def all : List Phase := [unlockAll, levelGatherers, levelCrafters, levelToCap]

/-- What a phase is called while it runs. -/
def title : Phase → String
  | unlockAll => "unlock all"
  | levelGatherers => "level gatherers"
  | levelCrafters => "level crafters"
  | levelToCap => "level to cap"

end Phase

/-- How a phase ends. -/
inductive PhaseOutcome where
  | completed | unimplemented
  deriving DecidableEq, Repr

def PhaseOutcome.name : PhaseOutcome → String
  | completed => "completed"
  | unimplemented => "unimplemented"

/-- A stage of unlocking a class. -/
inductive UnlockStage where
  | prerequisite | acquire | deliver | switch
  deriving DecidableEq, Repr

namespace UnlockStage

def all : List UnlockStage := [prerequisite, acquire, deliver, switch]

def title : UnlockStage → String
  | prerequisite => "prerequisite dialog"
  | acquire => "acquire unlock objective"
  | deliver => "deliver unlock objective"
  | switch => "switch class"

end UnlockStage

/-- A class that was unlocked: the stages it took, and its level then. -/
structure UnlockReport where
  job : Job
  stages : List UnlockStage
  level : UInt32
  deriving DecidableEq, Repr

/-- How leveling a class ends. -/
inductive LevelingOutcome where
  | reached (level : UInt32)
  /-- A round went by without the level moving. -/
  | stalled (level : UInt32)
  | orderFailed (item amount : UInt32)
  /-- Neither an objective nor an entry applies. -/
  | noProgress (level : UInt32)
  | switchFailed
  | notUnlocked
  deriving DecidableEq, Repr

def LevelingOutcome.name : LevelingOutcome → String
  | reached _ => "reached"
  | stalled _ => "stalled"
  | orderFailed .. => "order_failed"
  | noProgress _ => "no_progress_possible"
  | switchFailed => "switch_failed"
  | notUnlocked => "not_unlocked"

/-- How far a class was leveled. -/
structure ClassRun where
  job : Job
  phase : Phase
  startLevel : UInt32
  endLevel : UInt32
  iterations : Nat
  outcome : LevelingOutcome
  deriving DecidableEq, Repr

/-- What a run has achieved so far. -/
structure Summary where
  phases : List (Phase × PhaseOutcome) := []
  unlocked : List UnlockReport := []
  classes : List ClassRun := []
  finished : Bool := false
  deriving DecidableEq, Repr, Inhabited

/-- How far a class has to go. -/
structure Target where
  job : Job
  current : UInt32
  goal : UInt32
  deriving DecidableEq, Repr

def Target.isReached (t : Target) : Bool := t.goal ≤ t.current

end Progression
