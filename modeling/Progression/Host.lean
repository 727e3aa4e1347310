import Progression.Job
import Progression.Position
import Progression.Order

/-!
What the core asks of the game: queries, which are answered at once, and commands, which act and
may take time. A host is anything that answers both; it is a machine of its own, whose state the
core never looks into.
-/

namespace Progression

/-- Which copies of an item count. -/
inductive Quality where
  | any | high | normal
  deriving DecidableEq, Repr

/-- The windows a conversation opens. -/
inductive Window where
  /-- Plain conversation that waits for a click. -/
  | talk
  | selectYesNo
  | selectString
  | journalAccept
  /-- The completion window with the reward. -/
  | journalResult
  | request
  deriving DecidableEq, Repr

namespace Window

def all : List Window := [talk, selectYesNo, selectString, journalAccept, journalResult, request]

def name : Window → String
  | talk => "talk"
  | selectYesNo => "select_yes_no"
  | selectString => "select_string"
  | journalAccept => "journal_accept"
  | journalResult => "journal_result"
  | request => "request"

end Window

/-- A question about the present state of the game. -/
inductive Query where
  | held (id : ObjectiveId)
  | completed (id : ObjectiveId)
  | stage (id : ObjectiveId)
  /-- How many copies of an item there are. -/
  | count (item : ItemId) (quality : Quality)
  /-- The level of a class; 0 when it is locked. -/
  | level (job : Job)
  | activeJob
  | isOpen (window : Window)
  /-- An actor: whether it is within reach, if it can be seen. -/
  | actor (id : ActorId)
  deriving DecidableEq, Repr

@[reducible]
def Query.Answer : Query → Type
  | held _ => Bool
  | completed _ => Bool
  | stage _ => UInt32
  | count _ _ => UInt32
  | level _ => UInt32
  | activeJob => Option Job
  | isOpen _ => Bool
  | actor _ => Option Bool

/-- A way to answer every query. -/
abbrev Oracle (m : Type → Type) := (q : Query) → m q.Answer

/-- An act of the character. -/
inductive Command where
  | goTo (zone : ZoneId) (place : Position)
  | approach (actor : ActorId)
  | interact (actor : ActorId)
  | advance (window : Window)
  | choose (window : Window) (option : UInt32)
  | changeJob (job : Job)
  | equip
  | order (batch : List Order)
  deriving DecidableEq, Repr

/-- What the beginning of a command does: the state it leaves, how long the command will take, and
whether it raised the signal to stop. -/
structure Begun (σ : Type) where
  state : σ
  delay : Nat := 0
  raises : Bool := false

/-- What the end of a command or a query does. -/
structure Replied (σ α : Type) where
  state : σ
  answer : α
  raises : Bool := false

/-- Everything outside the core. Each operation is told the time, in milliseconds. -/
structure Host (σ : Type) where
  ask : (q : Query) → Nat → σ → Replied σ q.Answer
  start : Command → Nat → σ → Begun σ
  /-- Ends a command whose delay has passed, with its success. -/
  finish : Command → Nat → σ → Replied σ Bool

end Progression
