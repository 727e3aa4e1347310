import Progression.Proofs.Giving
import Progression.Proofs.Program.Course

/-!
What bounds a run. Loops are left after a limited number of rounds, programs are read to a limited
depth, and the steps begun are no more than can be counted before the run, by going through the
program and the programs it loads. Each bound is read off the course of the run, by induction on it.
-/

namespace Progression

variable {σ : Type}

/-! ### Marks -/

namespace Mark

def isBegan : Mark → Bool
  | began _ => true
  | _ => false

def isRaised : Mark → Bool
  | looped _ _ _ _ raised => raised
  | _ => false

/-- A loop that is left has kept to a limit: its ceiling is counted exactly when its body was
completed as often as it may be and its condition held still. A program that is read is not too
deep. -/
def Keeps (limit maxDepth : Nat) : Mark → Prop
  | began _ => True
  | stuck _ => True
  | opened _ depth => depth ≤ maxDepth
  | looped _ begun completed last raised =>
    begun ≤ limit ∧ (raised = true ↔ completed = limit ∧ last = true)

end Mark

/-- How many steps were begun. -/
def begins (ms : List Mark) : Nat := ms.countP Mark.isBegan

/-- How many ceilings were counted. -/
def raises (ms : List Mark) : Nat := ms.countP Mark.isRaised

section Counting

variable (ms ms' : List Mark)

@[simp] theorem begins_nil : begins [] = 0 := rfl
@[simp] theorem raises_nil : raises [] = 0 := rfl
@[simp] theorem begins_append : begins (ms ++ ms') = begins ms + begins ms' := List.countP_append
@[simp] theorem raises_append : raises (ms ++ ms') = raises ms + raises ms' := List.countP_append

@[simp] theorem begins_began (step : Step) : begins (.began step :: ms) = begins ms + 1 :=
  List.countP_cons_of_pos rfl

@[simp] theorem raises_began (step : Step) : raises (.began step :: ms) = raises ms := rfl
@[simp] theorem begins_stuck (step : Step) : begins (.stuck step :: ms) = begins ms := rfl

@[simp] theorem begins_opened (path : String) (depth : Nat) :
    begins (.opened path depth :: ms) = begins ms := rfl

@[simp] theorem raises_opened (path : String) (depth : Nat) :
    raises (.opened path depth :: ms) = raises ms := rfl

@[simp] theorem begins_looped (condition : String) (begun completed : Nat) (last raised : Bool) :
    begins (.looped condition begun completed last raised :: ms) = begins ms := rfl

@[simp] theorem raises_looped (condition : String) (begun completed : Nat) (last raised : Bool) :
    raises (.looped condition begun completed last raised :: ms) = raises ms + raised.toNat := by
  cases raised
  · rfl
  · exact List.countP_cons_of_pos rfl

end Counting

/-! ### Steps counted before a run -/

namespace Step

mutual

/-- How many steps a step can begin, when loops go on for so many rounds. -/
def bodyCost (limit : Nat) (loads : String → Nat) : Step → Nat
  | .branch _ body => costOf limit loads body
  | .loop _ body => limit * costOf limit loads body
  | .block body => costOf limit loads body
  | .load path => loads path
  | _ => 0

/-- How many steps there can be in all: each counts itself and those it can begin. -/
def costOf (limit : Nat) (loads : String → Nat) : List Step → Nat
  | [] => 0
  | step :: steps => 1 + bodyCost limit loads step + costOf limit loads steps

end

end Step

namespace Interpreter

variable (i : Interpreter σ)

/-- How many steps the program that a path leads to can begin, with so many levels left. -/
def costOfLoad : Nat → String → String → Nat
  | 0, _, _ => 0
  | left + 1, base, path =>
    match Program.load i.files (Path.joined base path) with
    | .error _ => 0
    | .ok p => Step.costOf i.limit (costOfLoad left p.base) p.steps

theorem costOfLoad_succ (left : Nat) (base path : String) :
    i.costOfLoad (left + 1) base path = match Program.load i.files (Path.joined base path) with
      | .error _ => 0
      | .ok p => Step.costOf i.limit (i.costOfLoad left p.base) p.steps := (rfl)

/-- How many steps a program can begin, with so many levels left. -/
def bound (left : Nat) (p : Program) : Nat :=
  Step.costOf i.limit (i.costOfLoad left p.base) p.steps

/-- How many steps a task can begin. -/
def costOfTask (left : Nat) (base : String) : Task → Nat
  | .step step => step.bodyCost i.limit (i.costOfLoad left base)
  | .steps steps => Step.costOf i.limit (i.costOfLoad left base) steps
  | .rounds _ body _ n => n * Step.costOf i.limit (i.costOfLoad left base) body

variable {i} {d l : Nat} {base : String} {task : Task} {r : RunReport} {s t : Session σ}
  {ms : List Mark} {result : Except Halt RunReport}

theorem begins_le_cost (h : i.Ran d l base task r s ms result t) :
    begins ms ≤ i.costOfTask l base task := by
  induction h with
  | done => simp
  | calledOff => simp
  | broken _ _ _ ih =>
    simp only [costOfTask, Step.costOf, begins_began] at ih ⊢
    omega
  | next _ _ _ _ ih ih' =>
    simp only [costOfTask, Step.costOf, begins_began, begins_append] at ih ih' ⊢
    omega
  | taken _ _ ih => exact ih
  | skipped => simp
  | block _ ih => exact ih
  | loop _ ih => exact ih
  | falsified => simp
  | ceiling => simp
  | bodyBroken _ _ ih =>
    simp only [costOfTask, begins_append, begins_looped, begins_nil, Nat.add_one_mul] at ih ⊢
    omega
  | bodyCalledOff _ _ _ ih =>
    simp only [costOfTask, begins_append, begins_looped, begins_nil, Nat.add_one_mul] at ih ⊢
    omega
  | round _ _ _ _ ih ih' =>
    simp only [costOfTask, begins_append, Nat.add_one_mul] at ih ih' ⊢
    omega
  | refused => simp
  | unread => simp
  | loaded hp _ ih =>
    simp only [costOfTask, Step.bodyCost, begins_opened] at ih ⊢
    rw [costOfLoad_succ, hp]
    exact ih
  | leaf => simp
  | stuck => simp

/-- What is left of a loop adds up to the limit. -/
def Fits (i : Interpreter σ) : Task → Prop
  | .rounds _ _ completed left => completed + left = i.limit
  | _ => True

theorem keeps_of_ran (h : i.Ran d l base task r s ms result t) (hd : d + l = i.maxDepth)
    (hf : i.Fits task) : ∀ m ∈ ms, m.Keeps i.limit i.maxDepth := by
  induction h with
  | done => simp
  | calledOff => simp
  | broken _ _ _ ih => simpa using ⟨trivial, ih hd trivial⟩
  | next _ _ _ _ ih ih' =>
    exact List.forall_mem_cons.2 ⟨trivial, List.forall_mem_append.2 ⟨ih hd trivial, ih' hd trivial⟩⟩
  | taken _ _ ih => exact ih hd trivial
  | skipped => simp
  | block _ ih => exact ih hd trivial
  | loop _ ih => exact ih hd (Nat.zero_add _)
  | falsified =>
    simp only [Fits] at hf
    simp only [List.mem_singleton, forall_eq, Mark.Keeps]
    refine ⟨by omega, by simp⟩
  | ceiling =>
    simp only [Fits] at hf
    simp only [List.mem_singleton, forall_eq, Mark.Keeps]
    refine ⟨by omega, by simpa using hf⟩
  | bodyBroken _ _ ih =>
    simp only [Fits] at hf
    refine List.forall_mem_append.2 ⟨ih hd trivial, ?_⟩
    simp only [List.mem_singleton, forall_eq, Mark.Keeps]
    refine ⟨by omega, by simp; omega⟩
  | bodyCalledOff _ _ _ ih =>
    simp only [Fits] at hf
    refine List.forall_mem_append.2 ⟨ih hd trivial, ?_⟩
    simp only [List.mem_singleton, forall_eq, Mark.Keeps]
    refine ⟨by omega, by simp; omega⟩
  | round _ _ _ _ ih ih' =>
    simp only [Fits] at hf ih'
    exact List.forall_mem_append.2 ⟨ih hd trivial, ih' hd (by omega)⟩
  | refused => simp
  | unread =>
    simp only [List.mem_singleton, forall_eq, Mark.Keeps]
    omega
  | loaded _ _ ih =>
    refine List.forall_mem_cons.2 ⟨?_, ih (by omega) trivial⟩
    simp only [Mark.Keeps]
    omega
  | leaf => simp
  | stuck => simp [Mark.Keeps]

/-! ### Results -/

theorem settle_eq_error {r : RunReport} {e : Halt} (h : settle r result = .error e) :
    result = .error e ∧ e.IsQuit := by
  unfold settle at h
  split at h
  · cases h
  · next e' =>
    split at h
    · next hc =>
      cases h
      cases e' with
      | cancelled => exact ⟨rfl, .inl rfl⟩
      | _ => cases hc
    · cases h
  · cases h
    exact ⟨rfl, .inr rfl⟩

theorem settle_eq_ok {r r' : RunReport} (h : settle r result = .ok r') : result = .ok r' ∨
    ∃ e, result = .error e ∧ ¬ e.IsQuit ∧ r' = { r with failures := r.failures + 1 } := by
  unfold settle at h
  split at h
  · exact .inl h
  · next e =>
    split at h
    · cases h
    · next hc =>
      cases h
      refine .inr ⟨_, rfl, ?_, rfl⟩
      rintro (h | h)
      · cases h
        exact hc rfl
      · cases h
  · cases h

/-- A run that does not end is stuck at a step without a body. -/
theorem stuck_of_endless (h : i.Ran d l base task r s ms result t) (hr : result = .error .endless) :
    ∃ step, .stuck step ∈ ms := by
  induction h with
  | done => cases hr
  | calledOff => cases hr
  | broken _ _ hs ih =>
    obtain ⟨step, hm⟩ := ih ((settle_eq_error hs).1.trans hr)
    exact ⟨step, List.mem_cons_of_mem _ hm⟩
  | next _ _ _ _ _ ih =>
    obtain ⟨step, hm⟩ := ih hr
    exact ⟨step, List.mem_cons_of_mem _ (List.mem_append_right _ hm)⟩
  | taken _ _ ih => exact ih hr
  | skipped => cases hr
  | block _ ih => exact ih hr
  | loop _ ih => exact ih hr
  | falsified => cases hr
  | ceiling => cases hr
  | bodyBroken _ _ ih =>
    obtain ⟨step, hm⟩ := ih hr
    exact ⟨step, List.mem_append_left _ hm⟩
  | bodyCalledOff => cases hr
  | round _ _ _ _ _ ih =>
    obtain ⟨step, hm⟩ := ih hr
    exact ⟨step, List.mem_append_right _ hm⟩
  | refused => cases hr
  | unread => cases hr
  | loaded _ _ ih =>
    obtain ⟨step, hm⟩ := ih hr
    exact ⟨step, List.mem_cons_of_mem _ hm⟩
  | leaf _ _ hne => exact absurd hr hne
  | stuck => exact ⟨_, List.mem_cons_self⟩

/-- What stops a task: only steps by themselves fail, and one that does has begun no other. -/
def Stops (ms : List Mark) (e : Halt) : Task → Prop
  | .step _ => e.IsQuit ∨ begins ms = 0 ∧ raises ms = 0
  | _ => e.IsQuit

theorem stops_of_ran {e : Halt} (h : i.Ran d l base task r s ms result t)
    (hr : result = .error e) : Stops ms e task := by
  induction h with
  | done => cases hr
  | calledOff => cases hr; exact .inl rfl
  | broken _ _ hs _ => cases hr; exact (settle_eq_error hs).2
  | next _ _ _ _ _ ih => exact ih hr
  | taken _ _ ih => exact .inl (ih hr)
  | skipped => cases hr
  | block _ ih => exact .inl (ih hr)
  | loop _ ih => exact .inl (ih hr)
  | falsified => cases hr
  | ceiling => cases hr
  | bodyBroken _ _ ih => exact ih hr
  | bodyCalledOff => cases hr; exact .inl rfl
  | round _ _ _ _ _ ih => exact ih hr
  | refused => exact .inr ⟨rfl, rfl⟩
  | unread => exact .inr ⟨rfl, rfl⟩
  | loaded _ _ ih => exact .inl (ih hr)
  | leaf => exact .inr ⟨rfl, rfl⟩
  | stuck => cases hr; exact .inl (.inr rfl)

/-- A step without a body leaves alone how many steps and ceilings were counted. -/
theorem counts_of_act {step : Step} (hs : step.IsLeaf) {r' : RunReport}
    (h : (i.act step r).go s = (.ok r', t)) :
    r'.executed = r.executed ∧ r'.ceilings = r.ceilings := by
  cases step with
  | branch => exact absurd hs id
  | loop => exact absurd hs id
  | block => exact absurd hs id
  | load => exact absurd hs id
  | unknown => cases h; exact ⟨rfl, rfl⟩
  | invalid => cases h
  | name => cases h; exact ⟨rfl, rfl⟩
  | craft => obtain ⟨_, _, -, h⟩ := Act.go_bind_eq_ok.1 h; cases h; exact ⟨rfl, rfl⟩
  | wait => obtain ⟨_, _, -, h⟩ := Act.go_bind_eq_ok.1 h; cases h; exact ⟨rfl, rfl⟩
  | interact => obtain ⟨_, _, -, h⟩ := Act.go_bind_eq_ok.1 h; cases h; exact ⟨rfl, rfl⟩
  | log => obtain ⟨_, _, -, h⟩ := Act.go_bind_eq_ok.1 h; cases h; exact ⟨rfl, rfl⟩
  | goTo =>
    obtain ⟨done, _, -, h⟩ := Act.go_bind_eq_ok.1 h
    cases done <;> cases h
    exact ⟨rfl, rfl⟩
  | changeJob =>
    obtain ⟨done, _, -, h⟩ := Act.go_bind_eq_ok.1 h
    cases done <;> cases h
    exact ⟨rfl, rfl⟩

/-- The report counts the steps that are begun, and the ceilings. -/
theorem counts_of_ran (h : i.Ran d l base task r s ms result t) : ∀ r', result = .ok r' →
    r'.executed = r.executed + begins ms ∧ r'.ceilings = r.ceilings + raises ms := by
  induction h with
  | done => intro r' hr; cases hr; simp
  | calledOff => intro r' hr; cases hr
  | broken => intro r' hr; cases hr
  | @next _ _ _ _ _ r _ _ _ _ _ _ _ _ _ hran hs _ ih ih' =>
    intro r' hr
    obtain ⟨he, hc⟩ := ih' r' hr
    have hr : r.counted.executed = r.executed + 1 := rfl
    have hr' : r.counted.ceilings = r.ceilings := rfl
    simp only [begins_began, raises_began, begins_append, raises_append]
    rcases settle_eq_ok hs with h | ⟨e, h, hq, rfl⟩
    · obtain ⟨he', hc'⟩ := ih _ h
      omega
    · -- A step that fails has begun nothing, so its own count is all there is.
      obtain ⟨hb, hb'⟩ := (stops_of_ran hran h).resolve_left hq
      dsimp only at he hc
      omega
  | taken _ _ ih => exact ih
  | skipped => intro r' hr; cases hr; simp
  | block _ ih => exact ih
  | loop _ ih => exact ih
  | falsified => intro r' hr; cases hr; simp
  | ceiling => intro r' hr; cases hr; simp
  | bodyBroken => intro r' hr; cases hr
  | bodyCalledOff => intro r' hr; cases hr
  | round _ _ _ _ ih ih' =>
    intro r' hr
    obtain ⟨he, hc⟩ := ih _ rfl
    obtain ⟨he', hc'⟩ := ih' r' hr
    simp only [begins_append, raises_append]
    omega
  | refused => intro r' hr; cases hr
  | unread => intro r' hr; cases hr
  | loaded _ _ ih => simpa using ih
  | leaf hs hgo _ => intro r' hr; cases hr; simpa using counts_of_act hs hgo
  | stuck => intro r' hr; cases hr

/-! ### The bounds of a run -/

/-- What can be said of a run of a program, by the marks on its way. -/
structure Bounded (i : Interpreter σ) (p : Program) (ms : List Mark)
    (result : Except Halt RunReport) : Prop where
  /-- The run ends if every step without a body does. -/
  ends : result = .error .endless → ∃ step, .stuck step ∈ ms
  stops : ∀ e, result = .error e → e.IsQuit
  /-- A loop is left after so many rounds; its ceiling is counted exactly if all of them were
  completed and its condition held once more. -/
  loops : ∀ condition begun completed last raised,
    .looped condition begun completed last raised ∈ ms →
      begun ≤ i.limit ∧ (raised = true ↔ completed = i.limit ∧ last = true)
  loads : ∀ path depth, .opened path depth ∈ ms → depth ≤ i.maxDepth
  steps : begins ms ≤ i.bound i.maxDepth p
  executed : ∀ report, result = .ok report →
    report.executed = begins ms ∧ report.executed ≤ i.bound i.maxDepth p
  ceilings : ∀ report, result = .ok report → report.ceilings = raises ms

/-- Every run of a program is bounded, whatever programs there are to be loaded. -/
theorem execute_is_bounded (i : Interpreter σ) (p : Program) (s : Session σ) :
    ∃ ms result t, (i.execute p).go s = (result, t) ∧
      i.Ran 0 i.maxDepth p.base (.steps p.steps) {} s ms result t ∧ i.Bounded p ms result := by
  obtain ⟨ms, result, t, hgo, hran⟩ := i.runs_runIn 0 i.maxDepth p.base p.steps {} s
  have hk := keeps_of_ran hran (Nat.zero_add _) trivial
  have hb : begins ms ≤ i.bound i.maxDepth p := begins_le_cost hran
  have hc := counts_of_ran hran
  refine ⟨ms, result, t, hgo, hran, ?_⟩
  constructor
  · exact stuck_of_endless hran
  · exact fun e => stops_of_ran hran
  · exact fun condition begun completed last raised hm => hk _ hm
  · exact fun path depth hm => hk _ hm
  · exact hb
  · intro report hr
    have he : report.executed = begins ms := by simpa using (hc report hr).1
    exact ⟨he, he ▸ hb⟩
  · intro report hr
    simpa using (hc report hr).2

end Interpreter
end Progression
