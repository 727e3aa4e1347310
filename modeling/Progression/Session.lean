import Progression.Error
import Progression.Host
import Progression.Status
import Progression.Summary
import Progression.Timeline

/-!
Sessions: a host, the time, the signal that calls work off, what has been published, and the
history of everything that was asked and done. `Act` is the type of the work itself: it goes on
from one session to another, and ends with a result or with the reason for stopping.

Two primitives touch the game: `look` asks a query and `issue` and `attempt` give a command. Two
primitives let time pass, `rest` and `attempt`, and both stop at once when the signal is raised.
-/

namespace Progression

/-- Something that happened between the core and the host, or a part of the work that was begun. -/
inductive Event where
  | asked (query : Query) (answer : query.Answer)
  /-- A command was begun, under a directive. -/
  | did (command : Command) (directive detail : String)
  /-- A command that may take time came to its end, with its success. -/
  | ended (command : Command) (success : Bool)
  | began (stage : UnlockStage)
  /-- A round of leveling a class was begun, at a level below its goal. -/
  | round (job : Job) (level : UInt32)

def Event.command? : Event → Option Command
  | .did c _ _ => some c
  | _ => none

/-- An event at a time. -/
structure Entry where
  time : Nat
  event : Event

/-- A moment of the work: the time, and how many commands had been given by then. -/
structure Moment where
  time : Nat
  given : Nat
  deriving DecidableEq, Repr

/-- Everything that work goes on from. -/
structure Session (σ : Type) where
  world : σ
  time : Timeline := {}
  /-- The signal that calls the work off. -/
  signal : Nat := 0
  status : Status.Bus := {}
  /-- What the leveling loop last read of each class. -/
  targets : List Target := []
  summary : Summary := {}
  /-- What happened, the newest first. -/
  history : List Entry := []
  /-- When the work was called off last. -/
  calledOff : Option Moment := none

namespace Session

variable {σ : Type} (s : Session σ)

def isCancelled : Bool := s.time.isRaised s.signal

def now : Nat := s.time.now

/-- The commands given, the newest first. -/
def commands : List Command := s.history.filterMap (·.event.command?)

/-- The session at another time. A signal that is raised by then calls the work off. -/
def moveTo (time : Timeline) : Session σ :=
  let calledOff :=
    if s.isCancelled || !time.isRaised s.signal then s.calledOff
    else some ⟨time.now, s.commands.length⟩
  { s with time, calledOff }

/-- Raises the signal if told so. -/
def raiseIf (b : Bool) : Session σ := if b then s.moveTo (s.time.raise s.signal) else s

def note (e : Event) : Session σ := { s with history := ⟨s.now, e⟩ :: s.history }

/-- The session after a query and its reply. -/
def asked (q : Query) (r : Replied σ q.Answer) : Session σ :=
  ({ s with world := r.state }.raiseIf r.raises).note (.asked q r.answer)

/-- The session after the beginning of a command. -/
def begun (c : Command) (b : Begun σ) : Session σ :=
  { s.note (.did c s.status.snapshot.directive s.status.snapshot.detail) with
    world := b.state }.raiseIf b.raises

/-- The session after the end of a command that may take time. -/
def finished (c : Command) (r : Replied σ Bool) : Session σ :=
  ({ s with world := r.state }.raiseIf r.raises).note (.ended c r.answer)

section Fields

variable (time : Timeline) (b : Bool) (e : Event) (c : Command)

@[simp] theorem history_moveTo : (s.moveTo time).history = s.history := rfl
@[simp] theorem world_moveTo : (s.moveTo time).world = s.world := rfl
@[simp] theorem now_moveTo : (s.moveTo time).now = time.now := rfl
@[simp] theorem commands_moveTo : (s.moveTo time).commands = s.commands := rfl

@[simp] theorem isCancelled_moveTo : (s.moveTo time).isCancelled = time.isRaised s.signal := rfl

@[simp] theorem history_raiseIf : (s.raiseIf b).history = s.history := by cases b <;> rfl
@[simp] theorem world_raiseIf : (s.raiseIf b).world = s.world := by cases b <;> rfl
@[simp] theorem commands_raiseIf : (s.raiseIf b).commands = s.commands := by cases b <;> rfl

@[simp] theorem now_raiseIf : (s.raiseIf b).now = s.now := by
  cases b
  · rfl
  · exact s.time.now_raise s.signal

@[simp] theorem isCancelled_raiseIf : (s.raiseIf b).isCancelled = (s.isCancelled || b) := by
  cases b
  · simp [raiseIf]
  · simp [raiseIf]

@[simp] theorem now_note : (s.note e).now = s.now := rfl
@[simp] theorem isCancelled_note : (s.note e).isCancelled = s.isCancelled := rfl
@[simp] theorem calledOff_note : (s.note e).calledOff = s.calledOff := rfl
@[simp] theorem history_note : (s.note e).history = ⟨s.now, e⟩ :: s.history := rfl

@[simp] theorem commands_note : (s.note e).commands = e.command?.toList ++ s.commands := by
  unfold commands note
  cases h : e.command? <;> simp [h]

end Fields

section Replies

variable (q : Query) (r : Replied σ q.Answer) (c : Command) (b : Begun σ) (f : Replied σ Bool)

@[simp] theorem world_asked : (s.asked q r).world = r.state := world_raiseIf _ _

@[simp] theorem now_asked : (s.asked q r).now = s.now := now_raiseIf { s with world := r.state } _

@[simp] theorem commands_asked : (s.asked q r).commands = s.commands := by
  rw [asked, commands_note, commands_raiseIf]
  rfl

@[simp] theorem history_asked :
    (s.asked q r).history = ⟨s.now, .asked q r.answer⟩ :: s.history := by
  rw [asked, history_note, history_raiseIf, now_raiseIf]
  rfl

@[simp] theorem isCancelled_asked : (s.asked q r).isCancelled = (s.isCancelled || r.raises) :=
  isCancelled_raiseIf { s with world := r.state } _

@[simp] theorem world_begun : (s.begun c b).world = b.state := world_raiseIf _ _

@[simp] theorem now_begun : (s.begun c b).now = s.now := now_raiseIf _ _

@[simp] theorem commands_begun : (s.begun c b).commands = c :: s.commands := by
  rw [begun, commands_raiseIf]
  rfl

@[simp] theorem history_begun : (s.begun c b).history =
    ⟨s.now, .did c s.status.snapshot.directive s.status.snapshot.detail⟩ :: s.history := by
  rw [begun, history_raiseIf]
  rfl

@[simp] theorem isCancelled_begun : (s.begun c b).isCancelled = (s.isCancelled || b.raises) :=
  isCancelled_raiseIf _ _

@[simp] theorem world_finished : (s.finished c f).world = f.state := world_raiseIf _ _

@[simp] theorem now_finished : (s.finished c f).now = s.now :=
  now_raiseIf { s with world := f.state } _

@[simp] theorem commands_finished : (s.finished c f).commands = s.commands := by
  rw [finished, commands_note, commands_raiseIf]
  rfl

@[simp] theorem history_finished :
    (s.finished c f).history = ⟨s.now, .ended c f.answer⟩ :: s.history := by
  rw [finished, history_note, history_raiseIf, now_raiseIf]
  rfl

@[simp] theorem isCancelled_finished : (s.finished c f).isCancelled = (s.isCancelled || f.raises) :=
  isCancelled_raiseIf { s with world := f.state } _

end Replies

end Session

/-- Work in a session. -/
abbrev Act (σ : Type) := ExceptT Halt (StateM (Session σ))

namespace Act

variable {σ α : Type}

def fail (e : Error) : Act σ α := throw (.failed e)

def now : Act σ Nat := return (← get).now

def isCancelled : Act σ Bool := return (← get).isCancelled

def check : Act σ Unit := do if ← isCancelled then fail .cancelled

/-- Waits. The answer is whether the wait came to its end; it does not when the work is called
off. -/
def rest? (length : Nat) : Act σ Bool := do
  let s ← get
  let (ended, time) := s.time.sleep s.signal length
  set (s.moveTo time)
  return ended

/-- Waits, and stops when the work is called off. -/
def rest (length : Nat) : Act σ Unit := do
  if !(← rest? length) then fail .cancelled

def publishDirective (directive detail : String) : Act σ Unit :=
  modify fun s => { s with status := s.status.publishDirective directive detail }

def publishLevels (levels : List (Job × UInt32)) : Act σ Unit :=
  modify fun s => { s with status := s.status.publishLevels levels }

def note (e : Event) : Act σ Unit := modify (·.note e)

def log (line : String) : Act σ Unit :=
  modify fun s => { s with status := s.status.log line }

end Act

namespace Host

variable {σ : Type} (h : Host σ)

def look : Oracle (Act σ) := fun q => do
  let s ← get
  let r := h.ask q s.now s.world
  set (s.asked q r)
  return r.answer

/-- Begins a command; the answer is how long it will take. -/
def begin (c : Command) : Act σ Nat := do
  let s ← get
  let b := h.start c s.now s.world
  set (s.begun c b)
  return b.delay

/-- Ends a command; the answer is its success. -/
def finishing (c : Command) : Act σ Bool := do
  let s ← get
  let r := h.finish c s.now s.world
  set (s.finished c r)
  return r.answer

/-- Gives a command that takes no time. -/
def issue (c : Command) : Act σ Unit := do
  let _ ← h.begin c

/-- Gives a command that may take time, and waits for its success. There is none when the work is
called off before the command or while it is under way; a command called off is left as it is. -/
def attempt? (c : Command) : Act σ (Option Bool) := do
  if ← Act.isCancelled then return none
  let delay ← h.begin c
  if delay ≠ 0 then
    if !(← Act.rest? delay) then return none
  return some (← h.finishing c)

/-- Gives a command that may take time, and stops when the work is called off. -/
def attempt (c : Command) : Act σ Bool := do
  match ← h.attempt? c with
  | some success => return success
  | none => Act.fail .cancelled

end Host
end Progression
