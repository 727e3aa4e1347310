import Progression.Interaction.Machine

/-!
Changing the active class. The game may ask for a confirmation, which is given; a change counts
only when the class is seen to be active.
-/

namespace Progression.Setup

variable {σ : Type} (s : Setup σ)

def isActive (j : Job) : Act σ Bool := do
  let active : Option Job ← s.host.look .activeJob
  return active == some j

/-- Says yes if the game asks for a confirmation. -/
def confirm : Act σ Unit := do
  let asks : Bool ← s.host.look (.isOpen .selectYesNo)
  if asks then s.host.issue (.choose .selectYesNo 0)

/-- One round of waiting for a class: whether it is active, once that is settled. -/
def awaitRound (j : Job) (deadline : Option Nat) : Act σ (Option Bool) := do
  if ← s.isActive j then return some true
  s.confirm
  if isPast (← Act.now) deadline then return some false
  return none

/-- Rounds until the class is active or the time is up, so many after the first one at most; the
answer is whether the class is active. -/
def awaitJob (j : Job) (deadline : Option Nat) (rounds : Nat) : Act σ Bool := do
  match ← s.awaitRound j deadline with
  | some active => return active
  | none =>
    Act.rest s.timing.tick.toNat
    match rounds with
    | 0 => throw .endless
    | rounds + 1 => awaitJob j deadline rounds

/-- Asks for a class unless it is active, and waits for it. -/
def changeJob (j : Job) : Act σ Bool := do
  if ← s.isActive j then return true
  Act.check
  s.host.issue (.changeJob j)
  let deadline := deadline? (← Act.now) (s.timing.switchTimeout.toNat * 1000)
  s.awaitJob j deadline s.rounds

/-- Rests, changes the class, puts on the best gear, and rests again. -/
def switchAndEquip (j : Job) : Act σ Bool := do
  Act.rest s.timing.switchDelay.toNat
  if !(← s.changeJob j) then return false
  s.host.issue .equip
  Act.rest s.timing.switchDelay.toNat
  return true

end Progression.Setup
