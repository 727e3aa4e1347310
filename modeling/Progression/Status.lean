import Progression.Job

/-!
What observers see of the work: the newest snapshot, and lines of a log. One side publishes, any
number of observers read. An observer of snapshots sees the newest one only; an observer of the
log sees every line since it joined, as long as it is at most `logCapacity` lines behind.
-/

namespace Progression.Status

/-- A snapshot of the work. -/
structure Snapshot where
  run : Option String := none
  directive : String := ""
  detail : String := ""
  /-- The levels of classes, in the order of `Job.all`. -/
  levels : List (Job × UInt32) := []
  updated : Bool := false
  deriving DecidableEq, Repr, Inhabited

/-- How many lines the log keeps for those who are behind. -/
def logCapacity : Nat := 256

/-- The published side. -/
structure Bus where
  snapshot : Snapshot := {}
  version : Nat := 0
  /-- The newest lines, the newest first. -/
  recent : List String := []
  logged : Nat := 0
  deriving DecidableEq, Repr, Inhabited

/-- An observer of snapshots: the version it has seen. -/
abbrev Watcher := Nat

/-- An observer of the log: how many lines it has passed. -/
abbrev Listener := Nat

/-- What an observer of the log gets: how many lines it has lost, and the lines after those. -/
structure Drained where
  lost : Nat
  lines : List String
  deriving DecidableEq, Repr

namespace Bus

variable (b : Bus)

def publish (f : Snapshot → Snapshot) : Bus :=
  { b with snapshot := { f b.snapshot with updated := true }, version := b.version + 1 }

def publishDirective (directive detail : String) : Bus :=
  b.publish fun s => { s with directive, detail }

def publishLevels (levels : List (Job × UInt32)) : Bus := b.publish fun s => { s with levels }

def setRun (run : String) : Bus := b.publish fun s => { s with run := some run }

def log (line : String) : Bus :=
  { b with recent := (line :: b.recent).take logCapacity, logged := b.logged + 1 }

/-- A new observer of snapshots, which has seen the present one. -/
def watch : Watcher := b.version

/-- Whether there is a snapshot that an observer has not seen. -/
def hasChanged (w : Watcher) : Bool := b.version != w

def listen : Listener := b.logged

/-- The lines that an observer still has to read. -/
def drain (l : Listener) : Drained × Listener :=
  let behind := b.logged - l
  (⟨behind - logCapacity, (b.recent.take behind).reverse⟩, b.logged)

end Bus
end Progression.Status
