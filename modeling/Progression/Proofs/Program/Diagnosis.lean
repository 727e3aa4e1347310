import Progression.Proofs.Except
import Progression.Proofs.Program.Bounds
import Progression.Proofs.Program.Meeting
import Progression.Scenario

/-!
What a check without running says about a run. Where nothing is to be remarked about a program, and
it loads no other, every step that a run meets is understood, so that no step fails unless the game
refuses what it asks for (`execute_of_diagnostics_eq_nil`).
-/

namespace Progression

open Markup (Node document expand)

/-! ### Steps that are understood -/

namespace Step

/-- A step that can be carried out as it stands: its tag is known, its attributes are without fault,
its orders can be read, and no part of its condition is unknown. -/
def IsUnderstood : Step → Prop
  | branch condition _ => (Condition.parse condition).unknowns = []
  | loop condition _ => (Condition.parse condition).unknowns = []
  | craft orders => ∃ batch, Batch.read orders = .ok batch
  | unknown .. => False
  | invalid .. => False
  | _ => True

theorem isUnderstood_of_remarks {step : Step} (h : step.remarks = []) : step.IsUnderstood := by
  cases step with
  | branch => exact List.map_eq_nil_iff.1 h
  | loop => exact List.map_eq_nil_iff.1 h
  | craft orders =>
    simp only [remarks] at h
    split at h
    · next batch hb => exact ⟨batch, by rw [Batch.read, hb]⟩
    · cases h
  | unknown => cases h
  | invalid => cases h
  | _ => trivial

mutual

/-- A step that is understood together with the steps in its body, none of which loads a program. -/
def IsClear : Step → Prop
  | branch condition body => IsUnderstood (branch condition body) ∧ AreClear body
  | loop condition body => IsUnderstood (loop condition body) ∧ AreClear body
  | block body => AreClear body
  | load _ => False
  | step => step.IsUnderstood

def AreClear : List Step → Prop
  | [] => True
  | step :: steps => step.IsClear ∧ AreClear steps

end

theorem IsClear.isUnderstood {step : Step} (h : step.IsClear) : step.IsUnderstood := by
  cases step with
  | branch => exact h.1
  | loop => exact h.1
  | _ => first | exact h | trivial

/-- What an element can spell, given the steps of its children: a step without a body, one that
loads a program, or one with these steps as its body. -/
inductive Spelled (body : List Step) : Step → Prop
  | leaf {step : Step} : step.IsLeaf → Spelled body step
  | load (path : String) : Spelled body (.load path)
  | branch (condition : String) : Spelled body (.branch condition body)
  | loop (condition : String) : Spelled body (.loop condition body)
  | block : Spelled body (.block body)

theorem isLeaf_of_interactionOf {n : Node} {kind : Interaction} {step : Step}
    (h : interactionOf n kind = .ok step) : step.IsLeaf := by
  simp only [interactionOf, bind, Except.bind] at h
  repeat (split at h; · cases h)
  cases h
  trivial

theorem spelled_of_build {n : Node} {body : List Step} {step : Step}
    (h : build n body = .ok step) : Spelled body step := by
  simp only [build, bind, Except.bind] at h
  split at h
  · split at h <;> cases h
    exact .branch _
  · split at h <;> cases h
    exact .loop _
  · split at h
    · cases h; exact .leaf trivial
    · split at h <;> cases h
      exact .leaf trivial
  · split at h
    · cases h
    · split at h <;> cases h
      exact .leaf trivial
  · split at h
    · cases h
    · split at h <;> cases h
      exact .leaf trivial
  · split at h <;> cases h
    exact .leaf trivial
  · split at h <;> cases h
    exact .load _
  · exact .leaf (isLeaf_of_interactionOf h)
  · exact .leaf (isLeaf_of_interactionOf h)
  · exact .leaf (isLeaf_of_interactionOf h)
  · cases h; exact .leaf trivial
  · cases h; exact .leaf trivial
  · split at h <;> cases h
    · exact .block
    · exact .leaf trivial

theorem isClear_of_leaf {step : Step} (hs : step.IsLeaf) (h : step.IsUnderstood) :
    step.IsClear := by
  cases step with
  | branch => exact absurd hs id
  | loop => exact absurd hs id
  | block => exact absurd hs id
  | load => exact absurd hs id
  | _ => exact h

theorem Spelled.isClear {body : List Step} {step : Step} (h : Spelled body step)
    (hr : step.remarks = []) (hl : loads step = [])
    (hb : loadsOf body = [] → AreClear body) : step.IsClear := by
  cases h with
  | leaf hs => exact isClear_of_leaf hs (isUnderstood_of_remarks hr)
  | load => cases hl
  | branch => exact ⟨isUnderstood_of_remarks hr, hb hl⟩
  | loop => exact ⟨isUnderstood_of_remarks hr, hb hl⟩
  | block => exact hb hl

mutual

/-- A step is clear if nothing is to be remarked about the elements it is read from. -/
theorem isClear_ofNode : ∀ n : Node, (∀ m ∈ n.all, (ofNode m).remarks = []) →
    loads (ofNode n) = [] → (ofNode n).IsClear
  | ⟨tag, attributes, text, children, line⟩, hr, hl => by
    have hself := hr ⟨tag, attributes, text, children, line⟩ (by simp [Node.all])
    have hbody : loadsOf (ofNodes children) = [] → AreClear (ofNodes children) :=
      areClear_ofNodes children fun m hm => hr m (by simp [Node.all, hm])
    rw [ofNode] at hl hself ⊢
    cases hb : build ⟨tag, attributes, text, children, line⟩ (ofNodes children) with
    | error reason =>
      rw [hb] at hself
      cases hself
    | ok step =>
      rw [hb] at hself hl
      exact (spelled_of_build hb).isClear hself hl hbody

theorem areClear_ofNodes : ∀ ns : List Node, (∀ m ∈ Node.allOf ns, (ofNode m).remarks = []) →
    loadsOf (ofNodes ns) = [] → AreClear (ofNodes ns)
  | [], _, _ => trivial
  | n :: ns, hr, hl => by
    rw [ofNodes, loadsOf, List.append_eq_nil_iff] at hl
    rw [Node.allOf] at hr
    obtain ⟨hn, hns⟩ := List.forall_mem_append.1 hr
    exact ⟨isClear_ofNode n hn hl.1, areClear_ofNodes ns hns hl.2⟩

end

end Step

namespace Program

/-- The name that steps give to a program. -/
def nameOf (steps : List Step) : Option String :=
  steps.findSome? fun s => match s with
    | .name n => if n = "" then none else some n
    | _ => none

/-- The program of an element. -/
def ofRoot (base : String) (root : Node) : Program :=
  let steps := Step.ofNodes root.children
  { name := nameOf steps, path := none, base, root, steps }

theorem read_eq_ok_iff {source : String} {s : List Char} {root : Node} :
    Markup.read source s = .ok root ↔ document s = .ok root := by
  unfold Markup.read
  split
  · next h => rw [h, Except.ok.injEq, Except.ok.injEq]
  · next h => simp [h]

theorem parse_eq_ok_iff {source base text : String} {p : Program} :
    parse source base text = .ok p ↔ ∃ expanded root, expand source text.toList = .ok expanded ∧
      document expanded = .ok root ∧ p = ofRoot base root := by
  constructor
  · intro h
    obtain ⟨expanded, hexpand, h⟩ := Except.bind_eq_ok.1 h
    obtain ⟨root, hread, h⟩ := Except.bind_eq_ok.1 h
    cases h
    exact ⟨expanded, root, hexpand, read_eq_ok_iff.1 hread, rfl⟩
  · rintro ⟨expanded, root, hexpand, hread, rfl⟩
    exact Except.bind_eq_ok.2 ⟨expanded, hexpand,
      Except.bind_eq_ok.2 ⟨root, read_eq_ok_iff.2 hread, rfl⟩⟩

/-- A program without remarks that loads no other has clear steps only. -/
theorem areClear_of_diagnostics {source base text : String} {p : Program}
    (h : parse source base text = .ok p) (hl : p.includes = []) (hd : p.diagnostics = []) :
    Step.AreClear p.steps := by
  obtain ⟨_, root, -, -, rfl⟩ := parse_eq_ok_iff.1 h
  rw [includes, List.map_eq_nil_iff] at hl
  refine Step.areClear_ofNodes _ ?_ hl
  intro n hn
  exact List.map_eq_nil_iff.1 (List.flatMap_eq_nil_iff.1 hd n hn)

end Program

/-! ### Runs of clear steps -/

/-- A task whose steps are clear, and whose condition has no unknown part. -/
def Task.IsClear : Task → Prop
  | .step s => s.IsClear
  | .steps ss => Step.AreClear ss
  | .rounds condition body _ _ => (Condition.parse condition).unknowns = [] ∧ Step.AreClear body

namespace Interpreter

variable {σ : Type} {i : Interpreter σ}

theorem Enters.isClear {c c' : Call σ} (h : i.Enters c c') (hc : c.task.IsClear) :
    c'.task.IsClear := by
  cases h with
  | first => exact hc.1
  | next => exact hc.2
  | taken => exact hc.2
  | block => exact hc
  | loop => exact hc
  | body => exact hc.2
  | round => exact hc
  | loaded => exact absurd hc id

/-- From clear tasks, only clear tasks are met. -/
theorem isClear_of_enters {c c' : Call σ} (h : Relation.ReflTransGen i.Enters c c')
    (hc : c.task.IsClear) : c'.task.IsClear := by
  induction h with
  | refl => exact hc
  | tail _ hstep ih => exact hstep.isClear ih

/-- A step without a body that is understood leaves the report as it is. -/
theorem report_of_act {step : Step} (hs : step.IsLeaf) (hu : step.IsUnderstood)
    {r r' : RunReport} {s t : Session σ} (h : (i.act step r).go s = (.ok r', t)) : r' = r := by
  cases step with
  | branch => exact absurd hs id
  | loop => exact absurd hs id
  | block => exact absurd hs id
  | load => exact absurd hs id
  | unknown => exact absurd hu id
  | invalid => exact absurd hu id
  | name => cases h; rfl
  | craft => obtain ⟨_, _, -, h⟩ := Act.go_bind_eq_ok.1 h; cases h; rfl
  | wait => obtain ⟨_, _, -, h⟩ := Act.go_bind_eq_ok.1 h; cases h; rfl
  | interact => obtain ⟨_, _, -, h⟩ := Act.go_bind_eq_ok.1 h; cases h; rfl
  | log => obtain ⟨_, _, -, h⟩ := Act.go_bind_eq_ok.1 h; cases h; rfl
  | goTo =>
    obtain ⟨done, _, -, h⟩ := Act.go_bind_eq_ok.1 h
    cases done <;> cases h
    rfl
  | changeJob =>
    obtain ⟨done, _, -, h⟩ := Act.go_bind_eq_ok.1 h
    cases done <;> cases h
    rfl

/-! ### Refusals -/

/-- The interaction that a step asks for. -/
def requested (i : Interpreter σ) (actor : ActorId) (objective : ObjectiveId) (zone : ZoneId)
    (place : Position) (timeout : Option UInt64) (option : Option UInt32) : Interaction.Request :=
  { i.request actor objective zone place with
    timeout := (timeout.map fun t => t.toNat * 1000).getD
      (i.request actor objective zone place).timeout
    option }

/-- The game refuses what a step asks for, and that is the error of the step: an order or a journey
does not succeed, an actor cannot be reached or does not do its part in time, a class does not
become active. -/
inductive Refuses (i : Interpreter σ) : Step → Session σ → Error → Session σ → Prop
  | order {orders : String} {batch : Batch} {s u t : Session σ} : Batch.read orders = .ok batch →
    (Act.publishDirective "Crafting" batch.summary).go s = (.ok (), u) →
    (i.host.attempt (.order batch)).go u = (.ok false, t) →
    Refuses i (.craft orders) s (orderFailure batch) t
  | journey {zone : ZoneId} {place : Position} {s t : Session σ} :
    (i.host.attempt (.goTo zone place)).go s = (.ok false, t) →
    Refuses i (.goTo zone place) s (.navigation zone) t
  | unreached {kind actor objective zone place timeout option} {s t : Session σ} :
    (i.interact kind (i.requested actor objective zone place timeout option)).go s =
      (.ok .navigationFailed, t) →
    Refuses i (.interact kind actor objective zone place timeout option) s (.navigation zone) t
  | unanswered {kind actor objective zone place timeout option} {s t : Session σ} :
    (i.interact kind (i.requested actor objective zone place timeout option)).go s =
      (.ok .timedOut, t) →
    Refuses i (.interact kind actor objective zone place timeout option) s
      (.interactionTimeout actor objective) t
  | job {job : Job} {s t : Session σ} : (i.switchAndEquip job).go s = (.ok false, t) →
    Refuses i (.changeJob job) s (.classSwitch job.title) t

/-- Work that gives commands fails only when it is called off. -/
theorem isCancelled_of_gives {α : Type} {C : Command → Prop} {a : Act σ α} (ha : a.Gives C)
    {s t : Session σ} {e : Error} (h : a.go s = (.error (.failed e), t)) :
    e.isCancelled = true := by
  rcases (ha s).halts (.failed e) (by rw [h]) with hq | hq
  · cases hq
    rfl
  · cases hq

theorem refuses_of_craft {orders : String} (hu : (Step.craft orders).IsUnderstood)
    {s t : Session σ} {e : Error} (h : (i.craft orders).go s = (.error (.failed e), t))
    (he : e.isCancelled = false) : i.Refuses (.craft orders) s e t := by
  obtain ⟨batch, hb⟩ := hu
  rw [craft, hb] at h
  rcases Act.go_bind_eq_error.1 h with h | ⟨_, u, hu, h⟩
  · cases h
  · rcases Act.go_bind_eq_error.1 h with h | ⟨success, v, hv, h⟩
    · have hc := isCancelled_of_gives (i.host.gives_attempt (C := fun _ => True) trivial) h
      rw [hc] at he
      cases he
    · cases success with
      | true => cases h
      | false =>
        cases h
        exact .order hb hu hv

theorem refuses_of_meet {kind : Interaction} {actor : ActorId} {objective : ObjectiveId}
    {zone : ZoneId} {place : Position} {timeout : Option UInt64} {option : Option UInt32}
    {s t : Session σ} {e : Error}
    (h : (i.meet kind (i.requested actor objective zone place timeout option)).go s =
      (.error (.failed e), t)) (he : e.isCancelled = false) :
    i.Refuses (.interact kind actor objective zone place timeout option) s e t := by
  rcases Act.go_bind_eq_error.1 h with h | ⟨outcome, u, hu, h⟩
  · have hc := isCancelled_of_gives (i.toSetup.gives_interact kind _) h
    rw [hc] at he
    cases he
  · cases outcome with
    | succeeded => cases h
    | cancelled => cases h; cases he
    | navigationFailed => cases h; exact .unreached hu
    | timedOut => cases h; exact .unanswered hu

/-- A step without a body that is understood fails only because the game refuses it. -/
theorem refuses_of_act {step : Step} (hs : step.IsLeaf) (hu : step.IsUnderstood) {r : RunReport}
    {s t : Session σ} {e : Error} (h : (i.act step r).go s = (.error (.failed e), t))
    (he : e.isCancelled = false) : i.Refuses step s e t := by
  cases step with
  | branch => exact absurd hs id
  | loop => exact absurd hs id
  | block => exact absurd hs id
  | load => exact absurd hs id
  | unknown => exact absurd hu id
  | invalid => exact absurd hu id
  | name => cases h
  | log => cases h
  | craft =>
    rcases Act.go_bind_eq_error.1 h with h | ⟨_, _, -, h⟩
    · exact refuses_of_craft hu h he
    · cases h
  | interact =>
    rcases Act.go_bind_eq_error.1 h with h | ⟨_, _, -, h⟩
    · exact refuses_of_meet h he
    · cases h
  | wait =>
    rcases Act.go_bind_eq_error.1 h with h | ⟨_, _, -, h⟩
    · rw [isCancelled_of_gives (Act.gives_rest (C := fun _ => True) _) h] at he
      cases he
    · cases h
  | goTo =>
    rcases Act.go_bind_eq_error.1 h with h | ⟨success, u, hgo, h⟩
    · rw [isCancelled_of_gives (i.host.gives_attempt (C := fun _ => True) trivial) h] at he
      cases he
    · cases success with
      | true => cases h
      | false => cases h; exact .journey hgo
  | changeJob job =>
    rcases Act.go_bind_eq_error.1 h with h | ⟨success, u, hgo, h⟩
    · rw [isCancelled_of_gives (i.toSetup.gives_switchAndEquip job) h] at he
      cases he
    · cases success with
      | true => cases h
      | false => cases h; exact .job hgo

/-- A call carries out a step that fails, without having been called off. -/
def FailsWith (i : Interpreter σ) (c : Call σ) (step : Step) (e : Error) (t : Session σ) : Prop :=
  c.task = .step step ∧ e.isCancelled = false ∧ ∃ ms, i.Comes c ms (.error (.failed e)) t

theorem not_isQuit {e : Error} (he : e.isCancelled = false) : ¬ (Halt.failed e).IsQuit := by
  rintro (h | h)
  · cases h
    cases he
  · cases h

/-- A clear step fails only because the game refuses it. -/
theorem refuses_of_failsWith {c : Call σ} {step : Step} {e : Error} {t : Session σ}
    (hc : c.task.IsClear) (h : i.FailsWith c step e t) : i.Refuses step c.session e t := by
  obtain ⟨d, l, base, task, r, s⟩ := c
  obtain ⟨rfl, he, ms, hran⟩ := h
  have hq := not_isQuit he
  have hc : step.IsClear := hc
  cases (show i.Ran d l base (.step step) r s ms (.error (.failed e)) t from hran) with
  | taken _ hran => exact absurd (stops_of_ran hran rfl) hq
  | block hran => exact absurd (stops_of_ran hran rfl) hq
  | loop hran => exact absurd (stops_of_ran hran rfl) hq
  | refused => exact absurd hc id
  | unread => exact absurd hc id
  | loaded => exact absurd hc id
  | leaf hs hgo _ => exact refuses_of_act hs hc.isUnderstood hgo he

/-! ### What the report counts -/

variable {d l : Nat} {base : String} {task : Task} {r : RunReport} {s t : Session σ}
  {ms : List Mark} {result : Except Halt RunReport}

/-- Clear tasks meet no unknown tag. -/
theorem unknown_of_ran (h : i.Ran d l base task r s ms result t) (hc : task.IsClear) :
    ∀ r', result = .ok r' → r'.unknown = r.unknown := by
  induction h with
  | done => rintro _ ⟨⟩; rfl
  | calledOff => rintro _ ⟨⟩
  | broken => rintro _ ⟨⟩
  | next _ _ hset _ ih ih' =>
    intro r' hr
    rw [ih' hc.2 r' hr]
    rcases settle_eq_ok hset with hres | ⟨e, -, -, rfl⟩
    · exact ih hc.1 _ hres
    · rfl
  | taken _ _ ih => exact ih hc.2
  | skipped => rintro _ ⟨⟩; rfl
  | block _ ih => exact ih hc
  | loop _ ih => exact ih hc
  | falsified => rintro _ ⟨⟩; rfl
  | ceiling => rintro _ ⟨⟩; rfl
  | bodyBroken => rintro _ ⟨⟩
  | bodyCalledOff => rintro _ ⟨⟩
  | round _ _ _ _ ih ih' =>
    intro r' hr
    rw [ih' hc r' hr, ih hc.2 _ rfl]
  | refused => exact absurd hc id
  | unread => exact absurd hc id
  | loaded => exact absurd hc id
  | leaf hs hgo _ =>
    rintro r' rfl
    rw [report_of_act hs (Step.IsClear.isUnderstood hc) hgo]
  | stuck => rintro _ ⟨⟩

/-- Where no step that is met fails, no failure is counted. -/
theorem failures_of_ran (h : i.Ran d l base task r s ms result t) (hc : task.IsClear)
    (hf : ∀ c step e u, Relation.ReflTransGen i.Enters ⟨d, l, base, task, r, s⟩ c →
      ¬ i.FailsWith c step e u) :
    ∀ r', result = .ok r' → r'.failures = r.failures := by
  induction h with
  | done => rintro _ ⟨⟩; rfl
  | calledOff => rintro _ ⟨⟩
  | broken => rintro _ ⟨⟩
  | next hs hran hset _ ih ih' =>
    intro r' hr
    rw [ih' hc.2 (fun c step e u h => hf c step e u (h.head (.next hs hran hset))) r' hr]
    rcases settle_eq_ok hset with hres | ⟨e, hres, hq, -⟩
    · exact ih hc.1 (fun c step e u h => hf c step e u (h.head (.first hs))) _ hres
    · -- The step that is begun here fails, and it is met.
      subst hres
      cases e with
      | endless => exact absurd (.inr rfl) hq
      | failed e =>
        have he : e.isCancelled = false := by
          cases e with
          | cancelled => exact absurd (.inl rfl) hq
          | _ => rfl
        exact absurd ⟨rfl, he, _, hran⟩ (hf _ _ e _ (.single (.first hs)))
  | taken ht _ ih => exact ih hc.2 fun c step e u h => hf c step e u (h.head (.taken ht))
  | skipped => rintro _ ⟨⟩; rfl
  | block _ ih => exact ih hc fun c step e u h => hf c step e u (h.head .block)
  | loop _ ih => exact ih hc fun c step e u h => hf c step e u (h.head .loop)
  | falsified => rintro _ ⟨⟩; rfl
  | ceiling => rintro _ ⟨⟩; rfl
  | bodyBroken => rintro _ ⟨⟩
  | bodyCalledOff => rintro _ ⟨⟩
  | round ht hran hu _ ih ih' =>
    intro r' hr
    rw [ih' hc (fun c step e u h => hf c step e u (h.head (.round ht hran hu))) r' hr]
    exact ih hc.2 (fun c step e u h => hf c step e u (h.head (.body ht))) _ rfl
  | refused => exact absurd hc id
  | unread => exact absurd hc id
  | loaded => exact absurd hc id
  | leaf hs hgo _ =>
    rintro r' rfl
    rw [report_of_act hs (Step.IsClear.isUnderstood hc) hgo]
  | stuck => rintro _ ⟨⟩

/-! ### Programs without remarks -/

/-- What can be foreseen of a run, by the marks on its way and by what it meets. -/
structure Foreseen (i : Interpreter σ) (p : Program) (s : Session σ) (ms : List Mark)
    (result : Except Halt RunReport) : Prop where
  /-- Every step that is begun is understood: no tag is unknown and no element is at fault, the
  orders can be read, and no part of a condition is unknown. -/
  understood : ∀ step, .began step ∈ ms → step.IsUnderstood
  /-- Every step that is begun is met. -/
  met : ∀ step, .began step ∈ ms → ∃ c, i.Meets p s c ∧ c.task = .step step
  /-- Every step that is met and fails is one that the game refuses. -/
  refused : ∀ c step e t, i.Meets p s c → i.FailsWith c step e t → i.Refuses step c.session e t
  unknown : ∀ report, result = .ok report → report.unknown = 0
  /-- Where the game refuses no step that is met, no failure is counted. -/
  failures : (∀ c step e t, i.Meets p s c → c.task = .step step → ¬ i.Refuses step c.session e t) →
    ∀ report, result = .ok report → report.failures = 0

/-- A program that loads no other, and about which there is nothing to be remarked, has no failures
in its runs but the refusals of the game. -/
theorem execute_of_diagnostics_eq_nil (i : Interpreter σ) {source base text : String} {p : Program}
    (hp : Program.parse source base text = .ok p) (hl : p.includes = []) (hd : p.diagnostics = [])
    (s : Session σ) : ∃ ms result t, (i.execute p).go s = (result, t) ∧
      i.Ran 0 i.maxDepth p.base (.steps p.steps) {} s ms result t ∧ i.Foreseen p s ms result := by
  obtain ⟨ms, result, t, hgo, hran⟩ := i.runs_runIn 0 i.maxDepth p.base p.steps {} s
  have hc : Task.IsClear (.steps p.steps) := Program.areClear_of_diagnostics hp hl hd
  have hmet : ∀ step, .began step ∈ ms → ∃ c, i.Meets p s c ∧ c.task = .step step :=
    fun step hm => met_of_ran hran hm
  have hrefused : ∀ c step e t, i.Meets p s c → i.FailsWith c step e t →
      i.Refuses step c.session e t :=
    fun c step e t h hf => refuses_of_failsWith (isClear_of_enters h hc) hf
  refine ⟨ms, result, t, hgo, hran, ?_⟩
  constructor
  · intro step hm
    obtain ⟨c, hmeets, htask⟩ := hmet step hm
    have hclear := isClear_of_enters hmeets hc
    rw [htask] at hclear
    exact Step.IsClear.isUnderstood hclear
  · exact hmet
  · exact hrefused
  · exact unknown_of_ran hran hc
  · intro hno
    refine failures_of_ran hran hc ?_
    intro c step e u hmeets hf
    exact hno c step e u hmeets hf.1 (hrefused c step e u hmeets hf)

/-- A program in which a class becomes active and a journey does not succeed. -/
theorem execute_of_diagnostics_eq_nil_of_journey :
    let i : Interpreter Scenario :=
      { host := Scenario.host, timing := {}, rounds := 8, limits := {}, files := {} }
    let s : Session Scenario := { world := { closedZones := [4] } }
    let text := "<Profile><While Condition='NqHasAtLeast(5, 3)'><Log>up</Log></While>" ++
      "<ChangeClass Class='Weaver'/><GoTo ZoneId='4' Location='1, 2, 3'/></Profile>"
    ∃ p, Program.parse "" "" text = .ok p ∧ p.includes = [] ∧ p.diagnostics = [] ∧
      ∃ ms result t, (i.execute p).go s = (result, t) ∧
        i.Ran 0 i.maxDepth p.base (.steps p.steps) {} s ms result t ∧ i.Foreseen p s ms result := by
  intro i s text
  have hclear : (Program.parse "" "" text).toOption.map (fun p => (p.includes, p.diagnostics)) =
      some ([], []) := by decide +kernel
  clear_value text
  cases hp : Program.parse "" "" text with
  | error => simp [hp, Except.toOption] at hclear
  | ok p =>
    obtain ⟨hl, hd⟩ : p.includes = [] ∧ p.diagnostics = [] := by
      simpa [hp, Except.toOption] using hclear
    exact ⟨p, rfl, hl, hd, i.execute_of_diagnostics_eq_nil hp hl hd s⟩

end Interpreter
end Progression
