import Progression.Host

/-!
Interactions with an actor: what for, with whom and where, and how they can end.
-/

namespace Progression

/-- What an interaction is for. -/
inductive Interaction where
  | acquire
  /-- An objective is to be completed, items handed over where asked for. -/
  | deliver
  /-- An objective is to be completed, or a conversation to be had to its end. -/
  | dialog
  deriving DecidableEq, Repr, Inhabited

namespace Interaction

def name : Interaction → String
  | acquire => "ObjectiveAcquire"
  | deliver => "ObjectiveDeliver"
  | dialog => "ActorDialog"

/-- The windows that are answered, the most urgent first. -/
def windows : Interaction → List Window
  | acquire => [.talk, .selectYesNo, .selectString, .journalAccept]
  | dialog => [.talk, .selectYesNo, .selectString, .journalAccept, .journalResult]
  | deliver => [.talk, .selectYesNo, .selectString, .journalAccept, .journalResult, .request]

def isReached {m : Type → Type} (ask : Oracle m) : Interaction → ObjectiveId → m Bool
  | acquire, id => ask (.held id)
  | deliver, id => ask (.completed id)
  | dialog, id => ask (.completed id)

def reply (option : Option UInt32) : Window → Command
  | .selectYesNo => .choose .selectYesNo 0
  | .selectString => .choose .selectString (option.getD 0)
  | w => .advance w

/-- One interaction that is asked for. -/
structure Request where
  actor : ActorId
  objective : ObjectiveId
  zone : ZoneId
  place : Position
  /-- How long it may take, in milliseconds. -/
  timeout : Nat
  /-- The option picked in lists of options; the first one if none is given. -/
  option : Option UInt32 := none
  deriving DecidableEq, Repr

/-- How an interaction ends. -/
inductive Outcome where
  | succeeded | timedOut | navigationFailed | cancelled
  deriving DecidableEq, Repr

namespace Outcome

def all : List Outcome := [succeeded, timedOut, navigationFailed, cancelled]

def name : Outcome → String
  | succeeded => "succeeded"
  | timedOut => "timed_out"
  | navigationFailed => "navigation_failed"
  | cancelled => "cancelled"

def isSuccess : Outcome → Bool
  | succeeded => true
  | _ => false

end Outcome
end Interaction
end Progression
