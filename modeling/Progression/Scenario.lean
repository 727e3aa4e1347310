import Progression.Host

/-!
Scenarios: a host that follows a script. It keeps a journal, an inventory, the levels and the
windows of a character, answers queries from them, and changes them by two kinds of rules: events,
which happen at a time, and reactions, which answer a command. `Scenario.host` is the host.

Events are caught up with whenever anything touches the scenario, in the order of the script; an
event happens once. A reaction happens at most as often as it has uses.
-/

namespace Progression

/-- One change of a scenario. -/
inductive Effect where
  | opens (window : Window)
  | closes (window : Window)
  | grant (id : ObjectiveId)
  | forget (id : ObjectiveId)
  /-- The objective is completed, and no longer held. -/
  | complete (id : ObjectiveId)
  | uncomplete (id : ObjectiveId)
  | level (job : Job) (value : UInt32)
  | items (item : ItemId) (normal high : UInt32)
  | stage (id : ObjectiveId) (value : UInt32)
  | activeJob (job : Option Job)
  | appears (actor : ActorId)
  | hides (actor : ActorId)
  | roadsOpen (value : Bool)
  | ordersSucceed (value : Bool)
  | changesApply (value : Bool)
  /-- How many levels an order is worth from now on. -/
  | gain (levels : UInt32)
  /-- The signal is raised. -/
  | cancel
  deriving DecidableEq, Repr

/-- What a reaction answers. -/
inductive Trigger where
  | goTo (zone : ZoneId)
  | interact (actor : ActorId)
  | advance (window : Window)
  | choose (window : Window) (option : UInt32)
  | changeJob (job : Job)
  | order (item : ItemId)
  deriving DecidableEq, Repr

/-- Effects that happen at a time. -/
structure Happening where
  time : Nat
  effects : List Effect
  deriving DecidableEq, Repr

/-- Effects that answer a trigger; `none` uses means any number of them. -/
structure Reaction where
  trigger : Trigger
  effects : List Effect
  uses : Option Nat
  deriving DecidableEq, Repr

/-- The entry of a key in a list of entries; a new key comes last. -/
def putEntry {κ α : Type} [DecidableEq κ] (k : κ) (v : α) : List (κ × α) → List (κ × α)
  | [] => [(k, v)]
  | e :: es => if e.1 = k then (k, v) :: es else e :: putEntry k v es

/-- The members of a list with one more, at the front unless it is there already. -/
def addMember {α : Type} [DecidableEq α] (x : α) (xs : List α) : List α :=
  if x ∈ xs then xs else x :: xs

/-- The sum of two counts, no more than the greatest count there is. -/
def addCounts (a b : UInt32) : UInt32 := .ofNat (min (a.toNat + b.toNat) (UInt32.size - 1))

/-- The state of a scenario. -/
structure Scenario where
  completed : List ObjectiveId := []
  held : List ObjectiveId := []
  stages : List (ObjectiveId × UInt32) := []
  /-- Counts of normal and of high quality. -/
  items : List (ItemId × UInt32 × UInt32) := []
  levels : List (Job × UInt32) := []
  activeJob : Option Job := none
  windows : List Window := []
  far : List ActorId := []
  hidden : List ActorId := []
  roadsOpen : Bool := true
  closedZones : List ZoneId := []
  travelTime : Nat := 0
  approachTime : Nat := 0
  ordersSucceed : Bool := true
  orderTime : Nat := 0
  gain : UInt32 := 0
  changesApply : Bool := true
  /-- Whether a change of class waits for a confirmation. -/
  changePrompts : Bool := false
  changeTime : Nat := 0
  /-- The class that waits for a confirmation. -/
  pending : Option Job := none
  reactions : List Reaction := []
  events : List Happening := []
  deriving DecidableEq, Repr, Inhabited

namespace Scenario

variable (w : Scenario)

/-- One effect. A raised signal is reported by `raises`. -/
def apply (w : Scenario) : Effect → Scenario
  | .opens k => { w with windows := addMember k w.windows }
  | .closes k => { w with windows := w.windows.filter (· ≠ k) }
  | .grant id => { w with held := addMember id w.held }
  | .forget id => { w with held := w.held.filter (· ≠ id) }
  | .complete id =>
    { w with held := w.held.filter (· ≠ id), completed := addMember id w.completed }
  | .uncomplete id => { w with completed := w.completed.filter (· ≠ id) }
  | .level j n => { w with levels := putEntry j n w.levels }
  | .items id normal high => { w with items := putEntry id (normal, high) w.items }
  | .stage id n => { w with stages := putEntry id n w.stages }
  | .activeJob j => { w with activeJob := j }
  | .appears a => { w with hidden := w.hidden.filter (· ≠ a) }
  | .hides a => { w with hidden := addMember a w.hidden }
  | .roadsOpen b => { w with roadsOpen := b }
  | .ordersSucceed b => { w with ordersSucceed := b }
  | .changesApply b => { w with changesApply := b }
  | .gain n => { w with gain := n }
  | .cancel => w

def applyAll (effects : List Effect) : Scenario := effects.foldl apply w

/-- Whether effects raise the signal. -/
def raises (effects : List Effect) : Bool := effects.contains .cancel

/-- The effects of every event that is due, and the events that are still to come. -/
def due (now : Nat) : List Effect × List Happening :=
  ((w.events.filter (·.time ≤ now)).flatMap (·.effects), w.events.filter fun e => now < e.time)

/-- The scenario with every event up to the time, and whether the signal is raised. -/
def catchUp (now : Nat) : Scenario × Bool :=
  let (effects, later) := w.due now
  ({ w with events := later }.applyAll effects, raises effects)

/-- The effects of the first reaction to a trigger that has uses left, and the reactions after
it. -/
def react (t : Trigger) : List Reaction → List Effect × List Reaction
  | [] => ([], [])
  | r :: rs =>
    if r.trigger = t ∧ r.uses ≠ some 0 then (r.effects, { r with uses := r.uses.map (· - 1) } :: rs)
    else
      let (effects, rest) := react t rs
      (effects, r :: rest)

/-- The scenario after a trigger, and whether the signal is raised. -/
def fire (t : Trigger) : Scenario × Bool :=
  let (effects, reactions) := react t w.reactions
  ({ w with reactions }.applyAll effects, raises effects)

def levelOf (j : Job) : UInt32 := (w.levels.lookup j).getD 0

def counts (item : ItemId) : UInt32 × UInt32 := (w.items.lookup item).getD (0, 0)

def answer (w : Scenario) : (q : Query) → q.Answer
  | .held id => w.held.contains id
  | .completed id => w.completed.contains id
  | .stage id => (w.stages.lookup id).getD 0
  | .count item .any => addCounts (w.counts item).1 (w.counts item).2
  | .count item .high => (w.counts item).2
  | .count item .normal => (w.counts item).1
  | .level j => w.levelOf j
  | .activeJob => w.activeJob
  | .isOpen k => w.windows.contains k
  | .actor a => if w.hidden.contains a then none else some !w.far.contains a

/-- What a request for another class does at once. -/
def requestJob (now : Nat) (j : Job) : Scenario :=
  if !w.changesApply then w
  else if w.changePrompts then
    { w with pending := some j, windows := addMember .selectYesNo w.windows }
  else if w.changeTime ≠ 0 then
    { w with events := w.events ++ [⟨now + w.changeTime, [.activeJob (some j)]⟩] }
  else { w with activeJob := some j }

/-- What an answer to a window does at once: the window closes, and a yes lets a pending class
take effect. -/
def chosen (k : Window) (option : UInt32) : Scenario :=
  let w := w.apply (.closes k)
  match w.pending with
  | some j =>
    if k = .selectYesNo ∧ option = 0 then { w with activeJob := some j, pending := none } else w
  | none => w

/-- The items of an order, delivered. -/
def deliver (o : Order) : Scenario :=
  let (normal, high) := w.counts o.item
  let counts := if o.hq then (normal, addCounts high o.amount) else (addCounts normal o.amount, high)
  { w with items := putEntry o.item counts w.items }

/-- The active class, richer by the levels an order is worth. -/
def reward : Scenario :=
  match w.activeJob with
  | some j => { w with levels := putEntry j (addCounts (w.levelOf j) w.gain) w.levels }
  | none => w

/-- The reactions to several triggers, one after another. -/
def fireAll (ts : List Trigger) : Scenario × Bool :=
  ts.foldl (fun (w, raised) t => let (w, b) := w.fire t; (w, raised || b)) (w, false)

def start (c : Command) (now : Nat) : Begun Scenario :=
  let (w, early) := w.catchUp now
  match c with
  | .goTo zone _ =>
    let (w', b) := w.fire (.goTo zone)
    ⟨w', w.travelTime, early || b⟩
  | .approach _ => ⟨w, w.approachTime, early⟩
  | .interact a =>
    let (w, b) := w.fire (.interact a)
    ⟨w, 0, early || b⟩
  | .advance k =>
    let (w, b) := (w.apply (.closes k)).fire (.advance k)
    ⟨w, 0, early || b⟩
  | .choose k option =>
    let (w, b) := (w.chosen k option).fire (.choose k option)
    ⟨w, 0, early || b⟩
  | .changeJob j =>
    let (w, b) := (w.requestJob now j).fire (.changeJob j)
    ⟨w, 0, early || b⟩
  | .equip => ⟨w, 0, early⟩
  | .order _ => ⟨w, w.orderTime, early⟩

def finish (c : Command) (now : Nat) : Replied Scenario Bool :=
  let (w, early) := w.catchUp now
  match c with
  | .goTo zone _ => ⟨w, w.roadsOpen && !w.closedZones.contains zone, early⟩
  | .approach a => ⟨{ w with far := w.far.filter (· ≠ a) }, true, early⟩
  | .order batch =>
    if !w.ordersSucceed then ⟨w, false, early⟩
    else
      let (w, b) := (batch.foldl deliver w).reward.fireAll (batch.map (.order ·.item))
      ⟨w, true, early || b⟩
  | _ => ⟨w, true, early⟩

/-- The host that follows a scenario. -/
def host : Host Scenario where
  ask q now w :=
    let (w, raised) := w.catchUp now
    ⟨w, w.answer q, raised⟩
  start c now w := w.start c now
  finish c now w := w.finish c now

end Scenario
end Progression
