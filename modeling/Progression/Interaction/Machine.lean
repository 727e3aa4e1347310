import Progression.Config
import Progression.Interaction.Basic
import Progression.Session

/-!
How an interaction goes. It is carried out in rounds, with a tick between two of them. A round
first looks whether the work is called off, then whether the goal is reached, then whether the
time is up, and only then does one piece of work: it travels, walks up to the actor, addresses the
actor, or answers one window.
-/

namespace Progression

/-- What work in the game needs: the game, its timing, and how many rounds a loop may take before
it counts as endless. -/
structure Setup (σ : Type) where
  host : Host σ
  timing : Timing
  rounds : Nat

namespace Interaction

/-- Where an interaction stands. -/
inductive Stage where
  | start
  /-- At the place; the actor is to be found. -/
  | walking
  /-- Before the actor, who is to be addressed. -/
  | facing
  /-- The actor is addressed; a window is to open. -/
  | waiting
  | answering
  deriving DecidableEq, Repr

/-- What comes of a piece of work. -/
inductive Progress where
  | ended (outcome : Outcome)
  | goesOn (stage : Stage)
  deriving DecidableEq, Repr

end Interaction

namespace Setup

open Interaction

variable {σ : Type} (s : Setup σ)

/-- The first of several windows that is open. -/
def firstOpen? : List Window → Act σ (Option Window)
  | [] => return none
  | w :: ws => do
    let isOpen : Bool ← s.host.look (.isOpen w)
    if isOpen then return some w
    firstOpen? ws

/-- Before the actor: an open window is answered; without one the actor is addressed, once until
another window was answered. -/
def converse (kind : Interaction) (r : Request) (stage : Stage) : Act σ Progress := do
  match ← s.firstOpen? kind.windows with
  | some w =>
    s.host.issue (reply r.option w)
    return .goesOn .answering
  | none =>
    match stage with
    | .waiting => return .goesOn .waiting
    | .answering =>
      if kind = .dialog then return .ended .succeeded
      s.host.issue (.interact r.actor)
      return .goesOn .waiting
    | _ =>
      s.host.issue (.interact r.actor)
      return .goesOn .waiting

/-- One piece of work. -/
def work (kind : Interaction) (r : Request) : Stage → Act σ Progress
  | .start => do
    match ← s.host.attempt? (.goTo r.zone r.place) with
    | none => return .ended .cancelled
    | some false => return .ended .navigationFailed
    | some true => return .goesOn .walking
  | .walking => do
    let found : Option Bool ← s.host.look (.actor r.actor)
    match found with
    | none => return .goesOn .walking
    | some true => return .goesOn .facing
    | some false =>
      match ← s.host.attempt? (.approach r.actor) with
      | none => return .ended .cancelled
      | some _ => return .goesOn .facing
  | stage => s.converse kind r stage

/-- One round. -/
def round (kind : Interaction) (r : Request) (deadline : Option Nat) (stage : Stage) :
    Act σ Progress := do
  if ← Act.isCancelled then return .ended .cancelled
  if ← kind.isReached s.host.look r.objective then return .ended .succeeded
  if isPast (← Act.now) deadline then
    if ← kind.isReached s.host.look r.objective then return .ended .succeeded
    return .ended .timedOut
  s.work kind r stage

/-- Rounds until the interaction ends, so many after the first one at most. -/
def interactFrom (kind : Interaction) (r : Request) (deadline : Option Nat) (rounds : Nat)
    (stage : Stage) : Act σ Outcome := do
  match ← s.round kind r deadline stage with
  | .ended outcome => return outcome
  | .goesOn stage =>
    if !(← Act.rest? s.timing.tick.toNat) then return .cancelled
    match rounds with
    | 0 => throw .endless
    | rounds + 1 => interactFrom kind r deadline rounds stage

/-- An interaction from its start to its end. -/
def interact (kind : Interaction) (r : Request) : Act σ Outcome := do
  s.interactFrom kind r (deadline? (← Act.now) r.timeout) s.rounds .start

def request (actor : ActorId) (objective : ObjectiveId) (zone : ZoneId) (place : Position) :
    Request :=
  { actor, objective, zone, place, timeout := s.timing.interactionTimeout.toNat * 1000 }

end Setup
end Progression
