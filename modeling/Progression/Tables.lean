import Progression.Config
import Progression.Error
import Progression.Host

/-!
Tables: how each class is unlocked, which objectives advance it, and what to produce when no
objective is at hand.
-/

namespace Progression

open Progression.Number (text)

/-- How a class is unlocked. -/
structure Unlock where
  job : Job
  zone : ZoneId
  /-- The objective to be completed first; 0 for none. -/
  prerequisite : ObjectiveId
  objective : ObjectiveId
  pickupActor : ActorId
  pickupPlace : Position
  turnInActor : ActorId
  turnInPlace : Position
  deriving DecidableEq, Repr, Inhabited

/-- What a class produces from a level on. -/
structure Grind where
  job : Job
  level : UInt32
  item : ItemId
  amount : UInt32
  deriving DecidableEq, Repr, Inhabited

/-- An objective that advances a class. -/
structure Objective where
  id : ObjectiveId
  /-- The objective to be completed first; 0 for none. -/
  prerequisite : ObjectiveId := 0
  level : UInt32
  actor : ActorId
  zone : ZoneId
  place : Position
  /-- The item to be handed over; 0 for none. -/
  deliverable : ItemId := 0
  count : UInt32 := 0
  deriving DecidableEq, Repr, Inhabited

namespace Objective

def hasDeliverable (o : Objective) : Bool := o.deliverable != 0 && 0 < o.count

/-- Whether an objective can be taken at a level: it is neither completed nor held, and its
prerequisite is completed. Nothing is asked that does not matter any more. -/
def isEligible {m : Type → Type} [Monad m] (ask : Oracle m) (o : Objective) (level : UInt32) :
    m Bool := do
  if level < o.level then return false
  let completed : Bool ← ask (.completed o.id)
  if completed then return false
  let held : Bool ← ask (.held o.id)
  if held then return false
  if o.prerequisite = 0 then return true
  ask (.completed o.prerequisite)

def firstEligible? {m : Type → Type} [Monad m] (ask : Oracle m) (level : UInt32) :
    List Objective → m (Option Objective)
  | [] => return none
  | o :: os => do
    if ← o.isEligible ask level then return some o
    firstEligible? ask level os

end Objective

/-- Of two entries the one with the higher level; of equals the second. -/
def Grind.better (a b : Grind × Nat) : Grind × Nat := if a.1.level ≤ b.1.level then b else a

/-- The entry with the highest level that is reached, and its place in the list; of equals the
last. -/
def Grind.best? (level : UInt32) (grinds : List Grind) : Option (Grind × Nat) :=
  (grinds.zipIdx.filter (·.1.level ≤ level)).foldl
    (fun best e => some (match best with
      | some b => better b e
      | none => e)) none

/-- The tables. Objectives are listed by class, in the order of the classes. -/
structure Tables where
  unlocks : List Unlock := []
  grinds : List Grind := []
  objectives : List (Job × List Objective) := []
  deriving DecidableEq, Repr, Inhabited

namespace Tables

/-! ### Contradictions -/

/-- The first class that is to be unlocked in two ways. -/
def duplicateUnlock? : List Job → List Unlock → Option Job
  | _, [] => none
  | seen, u :: us => if seen.contains u.job then some u.job else duplicateUnlock? (u.job :: seen) us

/-- The first entry whose level is no higher than the one of its class before it, and that one. -/
def unorderedGrind? : List Grind → List Grind → Option (Grind × UInt32)
  | _, [] => none
  | seen, g :: gs =>
    match seen.find? (·.job = g.job) with
    | some last => if g.level ≤ last.level then some (g, last.level) else unorderedGrind? (g :: seen) gs
    | none => unorderedGrind? (g :: seen) gs

def duplicateObjective? : List ObjectiveId → List Objective → Option ObjectiveId
  | _, [] => none
  | seen, o :: os => if seen.contains o.id then some o.id else duplicateObjective? (o.id :: seen) os

variable (t : Tables)

def contradiction? : Option String :=
  match duplicateUnlock? [] t.unlocks, unorderedGrind? [] t.grinds with
  | some j, _ => some ("duplicate unlock spec for " ++ j.title)
  | none, some (g, last) =>
    some ("grind thresholds for " ++ g.job.title ++ " must strictly increase ("
      ++ text g.level.toNat ++ " after " ++ text last.toNat ++ ")")
  | none, none => t.objectives.findSome? fun (j, os) =>
    (duplicateObjective? [] os).map fun id =>
      "objective " ++ text id.toNat ++ " listed twice for " ++ j.title

/-- The tables, if they do not contradict themselves. -/
def checked : Except Error Tables :=
  match t.contradiction? with
  | some reason => .error (.invalidTables reason)
  | none => .ok t

/-! ### Looking up -/

def unlockFor? (j : Job) : Option Unlock := t.unlocks.find? (·.job = j)

/-- The classes that can be unlocked, in the order of the table. -/
def unlockable : List Job := t.unlocks.map (·.job)

def grindsFor (j : Job) : List Grind := t.grinds.filter (·.job = j)

def bestGrind? (j : Job) (level : UInt32) : Option Grind :=
  (Grind.best? level (t.grindsFor j)).map (·.1)

def objectivesFor (j : Job) : List Objective := (t.objectives.lookup j).getD []

def jobs : List Job := Job.all.filter fun j =>
  (t.unlockFor? j).isSome || t.grinds.any (·.job = j) || (t.objectives.lookup j).isSome

/-! ### Remarks -/

def known : List ObjectiveId :=
  (t.objectives.flatMap (·.2)).map (·.id) ++ t.unlocks.map (·.objective)
    ++ t.unlocks.map (·.prerequisite)

/-- What is to be said about an objective of a class. -/
def objectiveRemarks (j : Job) (o : Objective) : List Remark :=
  let subject := j.title ++ " objective " ++ text o.id.toNat
  (if o.prerequisite ≠ 0 ∧ ¬ t.known.contains o.prerequisite then
    [⟨.warning, subject ++ " depends on " ++ text o.prerequisite.toNat ++ " which no table lists"⟩]
    else [])
  ++ (if o.deliverable ≠ 0 ∧ o.count = 0 then
    [⟨.warning, subject ++ " names deliverable " ++ text o.deliverable.toNat ++ " with count 0"⟩]
    else [])

/-- What is to be said about the tables. -/
def remarks : List Remark :=
  (t.objectives.flatMap fun (j, os) => os.flatMap (t.objectiveRemarks j))
  ++ (t.unlockable.filter fun j => !t.grinds.any (·.job = j)).map fun j =>
    ⟨.warning, j.title ++ " can be unlocked but has no grind entries"⟩

end Tables
end Progression
