/-!
Watching the order runner until it rests. A watch goes from one look at the runner to the next and
ends in one of three ways: the runner was seen at work and then at rest; it was seen at rest twice
without ever having been seen at work; or it could not be seen three times in a row.
-/

namespace Progression.Runner

/-- What a look at the runner shows. -/
inductive Sight where
  | busy | idle
  | failed
  deriving DecidableEq, Repr

/-- How a watch ends. -/
inductive Rest where
  | finished
  | neverSeenBusy
  | unreachable
  deriving DecidableEq, Repr

def Rest.isComplete : Rest → Bool
  | unreachable => false
  | _ => true

/-- How many looks in a row may fail. -/
def failureLimit : Nat := 3

/-- How often the runner must be seen at rest if it was never seen at work. -/
def idleLimit : Nat := 2

/-- A watch under way. -/
structure Watch where
  seenBusy : Bool := false
  /-- How often the runner was seen at rest since it was last seen at work. -/
  idle : Nat := 0
  /-- How many looks have failed since the last one that did not. -/
  failures : Nat := 0
  deriving DecidableEq, Repr, Inhabited

namespace Watch

/-- One look: the watch ends or goes on. -/
def step (w : Watch) : Sight → Rest ⊕ Watch
  | .busy => .inr { seenBusy := true, idle := 0, failures := 0 }
  | .idle =>
    if w.seenBusy then .inl .finished
    else if idleLimit ≤ w.idle + 1 then .inl .neverSeenBusy
    else .inr { w with idle := w.idle + 1, failures := 0 }
  | .failed =>
    if failureLimit ≤ w.failures + 1 then .inl .unreachable
    else .inr { w with failures := w.failures + 1 }

/-- How a watch ends with given looks, and after how many; nothing if it goes on past them. -/
def ending? (w : Watch) : List Sight → Option (Rest × Nat)
  | [] => none
  | s :: ss =>
    match w.step s with
    | .inl rest => some (rest, 1)
    | .inr w => (ending? w ss).map fun (rest, n) => (rest, n + 1)

end Watch
end Progression.Runner
