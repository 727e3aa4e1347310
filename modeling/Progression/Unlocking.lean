import Progression.Switch
import Progression.Tables

/-!
Unlocking a class, in up to four stages: the prerequisite is talked through, the objective of the
unlock is acquired, it is delivered, and the class is made the active one. A stage is started only
if the journal says that it is still to be done, so an unlock that was broken off goes on where it
stopped.
-/

namespace Progression

def UnlockStage.failure (j : Job) (stage : UnlockStage) (reason : String) : Error :=
  .unlockStep j.title stage.title reason

def UnlockStage.require {σ : Type} (j : Job) (stage : UnlockStage) :
    Interaction.Outcome → Act σ Unit
  | .succeeded => return ()
  | .cancelled => Act.fail .cancelled
  | .timedOut => Act.fail (stage.failure j "interaction timed out")
  | .navigationFailed => Act.fail (stage.failure j "navigation failed")

namespace Setup

variable {σ : Type} (s : Setup σ)

def isCompleted (id : ObjectiveId) : Act σ Bool := s.host.look (.completed id)

def isHeld (id : ObjectiveId) : Act σ Bool := s.host.look (.held id)

def level (j : Job) : Act σ UInt32 := s.host.look (.level j)

/-- The prerequisite, if there is one to be completed. -/
def completePrerequisite (u : Unlock) : Act σ (List UnlockStage) := do
  if u.prerequisite = 0 then return []
  if ← s.isCompleted u.prerequisite then return []
  Act.note (.began .prerequisite)
  let outcome ← s.interact .dialog
    (s.request u.pickupActor u.prerequisite u.zone u.pickupPlace)
  UnlockStage.prerequisite.require u.job outcome
  Act.rest s.timing.settleDelay.toNat
  return [.prerequisite]

/-- The objective of the unlock acquired, if it is neither completed nor held. -/
def acquireUnlock (u : Unlock) : Act σ (List UnlockStage) := do
  if ← s.isCompleted u.objective then return []
  if ← s.isHeld u.objective then return []
  Act.note (.began .acquire)
  let outcome ← s.interact .acquire (s.request u.pickupActor u.objective u.zone u.pickupPlace)
  UnlockStage.acquire.require u.job outcome
  return [.acquire]

/-- The objective of the unlock delivered, if it is held. -/
def deliverUnlock (u : Unlock) : Act σ (List UnlockStage) := do
  if !(← s.isHeld u.objective) then return []
  Act.note (.began .deliver)
  let outcome ← s.interact .deliver (s.request u.turnInActor u.objective u.zone u.turnInPlace)
  UnlockStage.deliver.require u.job outcome
  Act.rest s.timing.settleDelay.toNat
  return [.deliver]

/-- The class made active, if the objective is completed and another class is active. -/
def activateUnlocked (u : Unlock) : Act σ (List UnlockStage) := do
  if !(← s.isCompleted u.objective) then return []
  if ← s.isActive u.job then return []
  Act.note (.began .switch)
  if !(← s.switchAndEquip u.job) then
    Act.fail (UnlockStage.switch.failure u.job "class change not confirmed")
  return [.switch]

/-- A class unlocked from wherever its unlock stands. -/
def unlock (u : Unlock) : Act σ UnlockReport := do
  let first ← s.completePrerequisite u
  let second ← s.acquireUnlock u
  let third ← s.deliverUnlock u
  let fourth ← s.activateUnlocked u
  let level ← s.level u.job
  if level = 0 then
    if !(← s.isCompleted u.objective) then
      Act.fail (.unlockStep u.job.title "verify" "class still locked")
  return { job := u.job, stages := first ++ second ++ third ++ fourth, level }

end Setup
end Progression
