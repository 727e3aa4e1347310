import Progression.Program.Interpreter
import Progression.Proofs.Work

/-!
The course of a run. `Ran` relates what is run, and the session it is run in, to what comes of it;
on the way it marks every step that is begun, every program that is read, and every loop that is
left. The depth of a program and the completed rounds of a loop are counted up there, while the
interpreter counts down what is left of them. Every run has a course (`ran_runIn`), and after that
nothing opens the interpreter.
-/

namespace Progression

variable {σ α β : Type}

/-! ### Conditions -/

/-- Work that always has a result. -/
def Act.Answers (a : Act σ α) : Prop := ∀ s, ∃ x t, a.go s = (.ok x, t)

theorem Act.answers_pure (x : α) : (pure x : Act σ α).Answers := fun s => ⟨x, s, rfl⟩

theorem Act.Answers.bind {a : Act σ α} {f : α → Act σ β} (ha : a.Answers)
    (hf : ∀ x, (f x).Answers) : (a >>= f).Answers := by
  intro s
  obtain ⟨x, t, h⟩ := ha s
  obtain ⟨y, u, h'⟩ := hf x t
  exact ⟨y, u, by rw [go_bind_ok h, h']⟩

section Conditions

variable (h : Host σ)

theorem Host.answers_look (q : Query) : (h.look q).Answers := fun s => ⟨_, _, h.go_look s q⟩

theorem Predicate.answers_holds (q : Predicate) : (q.holds h.look).Answers := by
  have looked {γ : Type} (q : Query) {f : q.Answer → γ} :
      (h.look q >>= fun x => (pure (f x) : Act σ γ)).Answers :=
    (h.answers_look q).bind fun _ => Act.answers_pure _
  cases q with
  | isQuestCompleted id => exact h.answers_look _
  | hasQuest id => exact h.answers_look _
  | hasItem id => exact looked _
  | isQuestAcceptQualified id =>
    refine (h.answers_look _).bind ?_
    intro completed
    split
    · exact Act.answers_pure _
    · exact looked _
  | hqHasAtLeast id amount => exact looked _
  | nqHasAtLeast id amount => exact looked _
  | questStep id op value => exact looked _
  | level job op value => exact looked _
  | activeLevel op value =>
    refine (h.answers_look _).bind ?_
    intro active
    split
    · exact looked _
    · exact Act.answers_pure _
  | activeJob job negated => exact looked _

namespace Condition

mutual

theorem answers_eval : ∀ c : Condition, (c.eval h.look).Answers
  | .any parts => answers_evalAny parts
  | .all parts => answers_evalAll parts
  | .not part => (answers_eval part).bind fun _ => Act.answers_pure _
  | .literal _ => Act.answers_pure _
  | .atom q => q.answers_holds h
  | .unknown _ => Act.answers_pure _

theorem answers_evalAny : ∀ cs : List Condition, (evalAny h.look cs).Answers
  | [] => Act.answers_pure _
  | c :: cs => by
    refine (answers_eval c).bind ?_
    intro b
    split
    · exact Act.answers_pure _
    · exact answers_evalAny cs

theorem answers_evalAll : ∀ cs : List Condition, (evalAll h.look cs).Answers
  | [] => Act.answers_pure _
  | c :: cs => by
    refine (answers_eval c).bind ?_
    intro b
    split
    · exact answers_evalAll cs
    · exact Act.answers_pure _

end

theorem answers_evaluate (condition : String) : (evaluate h.look condition).Answers :=
  answers_eval h _

end Condition

end Conditions

/-! ### Courses -/

/-- Something that happens in a run. -/
inductive Mark where
  /-- A step is begun. -/
  | began (step : Step)
  /-- A step without a body does not come to an end. -/
  | stuck (step : Step)
  /-- A program is read, at a depth. -/
  | opened (path : String) (depth : Nat)
  /-- A loop is left: how often its body was begun and completed, what its condition came to last,
  and whether a ceiling was counted. -/
  | looped (condition : String) (begun completed : Nat) (last raised : Bool)

/-- What is run: a step, steps one after the other, or the rest of a loop, with how often its body
was completed and how often it may be begun yet. -/
inductive Task where
  | step (step : Step)
  | steps (steps : List Step)
  | rounds (condition : String) (body : List Step) (completed left : Nat)

/-- A step without a body, which loads no program. -/
def Step.IsLeaf : Step → Prop
  | .branch .. => False
  | .loop .. => False
  | .block _ => False
  | .load _ => False
  | _ => True

/-- The report when a step is begun. -/
def RunReport.counted (r : RunReport) : RunReport := { r with executed := r.executed + 1 }

namespace Interpreter

/-- What steps make of the result of one of them: a failure is counted, a call to stop is passed
on. -/
def settle (r : RunReport) : Except Halt RunReport → Except Halt RunReport
  | .ok r' => .ok r'
  | .error (.failed e) =>
    if e.isCancelled then .error (.failed e) else .ok { r with failures := r.failures + 1 }
  | .error .endless => .error .endless

theorem go_softly (r : RunReport) (act : RunReport → Act σ RunReport) (s : Session σ) :
    (softly r act).go s =
      (settle r.counted ((act r.counted).go s).1, ((act r.counted).go s).2) := by
  rw [show softly r act = tryCatch (act r.counted) _ from rfl, Act.go_tryCatch]
  rcases (act r.counted).go s with ⟨e | r', t⟩
  · cases e with
    | failed e =>
      unfold settle
      dsimp only
      split <;> rfl
    | endless => rfl
  · rfl

section Run

variable (i : Interpreter σ)

/-- A step without a body, carried out. -/
def act (step : Step) (r : RunReport) : Act σ RunReport := i.runStep (fun _ r => pure r) step r

/-- How often the body of a loop may be begun. -/
abbrev limit : Nat := i.limits.iterations.toNat

/-- How deep programs may be loaded. -/
abbrev maxDepth : Nat := i.limits.includeDepth.toNat

/-- What comes of a task that is run at a depth, when as many levels are left, with the directory
its program is in. -/
inductive Ran : Nat → Nat → String → Task → RunReport → Session σ → List Mark →
    Except Halt RunReport → Session σ → Prop
  | done {d l base r s} : Ran d l base (.steps []) r s [] (.ok r) s
  | calledOff {d l base step steps r s} : s.isCancelled = true →
    Ran d l base (.steps (step :: steps)) r s [] (.error (.failed .cancelled)) s
  | broken {d l base step steps r s ms result t e} : s.isCancelled = false →
    Ran d l base (.step step) r.counted s ms result t → settle r.counted result = .error e →
    Ran d l base (.steps (step :: steps)) r s (.began step :: ms) (.error e) t
  | next {d l base step steps r s ms result t r' ms' result' u} : s.isCancelled = false →
    Ran d l base (.step step) r.counted s ms result t → settle r.counted result = .ok r' →
    Ran d l base (.steps steps) r' t ms' result' u →
    Ran d l base (.steps (step :: steps)) r s (.began step :: (ms ++ ms')) result' u
  | taken {d l base condition body r s t ms result u} :
    (Condition.evaluate i.host.look condition).go s = (.ok true, t) →
    Ran d l base (.steps body) r t ms result u →
    Ran d l base (.step (.branch condition body)) r s ms result u
  | skipped {d l base condition body r s t} :
    (Condition.evaluate i.host.look condition).go s = (.ok false, t) →
    Ran d l base (.step (.branch condition body)) r s [] (.ok r) t
  | block {d l base body r s ms result t} : Ran d l base (.steps body) r s ms result t →
    Ran d l base (.step (.block body)) r s ms result t
  | loop {d l base condition body r s ms result t} :
    Ran d l base (.rounds condition body 0 i.limit) r s ms result t →
    Ran d l base (.step (.loop condition body)) r s ms result t
  | falsified {d l base condition body k n r s t} :
    (Condition.evaluate i.host.look condition).go s = (.ok false, t) →
    Ran d l base (.rounds condition body k n) r s [.looped condition k k false false] (.ok r) t
  | ceiling {d l base condition body k r s t} :
    (Condition.evaluate i.host.look condition).go s = (.ok true, t) →
    Ran d l base (.rounds condition body k 0) r s [.looped condition k k true true]
      (.ok { r with ceilings := r.ceilings + 1 }) t
  | bodyBroken {d l base condition body k n r s t ms e u} :
    (Condition.evaluate i.host.look condition).go s = (.ok true, t) →
    Ran d l base (.steps body) r t ms (.error e) u →
    Ran d l base (.rounds condition body k (n + 1)) r s
      (ms ++ [.looped condition (k + 1) k true false]) (.error e) u
  | bodyCalledOff {d l base condition body k n r s t ms r' u} :
    (Condition.evaluate i.host.look condition).go s = (.ok true, t) →
    Ran d l base (.steps body) r t ms (.ok r') u → u.isCancelled = true →
    Ran d l base (.rounds condition body k (n + 1)) r s
      (ms ++ [.looped condition (k + 1) k true false]) (.error (.failed .cancelled)) u
  | round {d l base condition body k n r s t ms r' u ms' result v} :
    (Condition.evaluate i.host.look condition).go s = (.ok true, t) →
    Ran d l base (.steps body) r t ms (.ok r') u → u.isCancelled = false →
    Ran d l base (.rounds condition body (k + 1) n) r' u ms' result v →
    Ran d l base (.rounds condition body k (n + 1)) r s (ms ++ ms') result v
  | refused {d base path r s} : Ran d 0 base (.step (.load path)) r s []
    (.error (.failed (.includeDepth (Path.joined base path) (i.maxDepth + 1) i.maxDepth))) s
  | unread {d l base path e r s} : Program.load i.files (Path.joined base path) = .error e →
    Ran d (l + 1) base (.step (.load path)) r s [.opened (Path.joined base path) (d + 1)]
      (.error (.failed e)) s
  | loaded {d l base path program r s ms result t} :
    Program.load i.files (Path.joined base path) = .ok program →
    Ran (d + 1) l program.base (.steps program.steps) r s ms result t →
    Ran d (l + 1) base (.step (.load path)) r s (.opened (Path.joined base path) (d + 1) :: ms)
      result t
  | leaf {d l base step r s result t} : step.IsLeaf → (i.act step r).go s = (result, t) →
    result ≠ .error .endless → Ran d l base (.step step) r s [] result t
  | stuck {d l base step r s t} : step.IsLeaf → (i.act step r).go s = (.error .endless, t) →
    Ran d l base (.step step) r s [.stuck step] (.error .endless) t

/-! ### Every run has a course -/

/-- Work takes a course in every session and with every report. -/
def Runs (d l : Nat) (base : String) (task : Task) (work : RunReport → Act σ RunReport) : Prop :=
  ∀ r s, ∃ ms result t, (work r).go s = (result, t) ∧ i.Ran d l base task r s ms result t

variable {i} {d l : Nat} {base : String}

theorem runs_repeatWhile {condition : String} {body : List Step}
    {work : RunReport → Act σ RunReport} (hb : i.Runs d l base (.steps body) work) (k n : Nat) :
    i.Runs d l base (.rounds condition body k n)
      (repeatWhile (Condition.evaluate i.host.look condition) work n) := by
  induction n generalizing k with
  | zero =>
    intro r s
    obtain ⟨b, t, ht⟩ := Condition.answers_evaluate i.host condition s
    unfold repeatWhile
    rw [Act.go_bind_ok ht]
    cases b with
    | true => exact ⟨_, _, t, rfl, .ceiling ht⟩
    | false => exact ⟨_, _, t, rfl, .falsified ht⟩
  | succ n ih =>
    intro r s
    obtain ⟨b, t, ht⟩ := Condition.answers_evaluate i.host condition s
    unfold repeatWhile
    rw [Act.go_bind_ok ht]
    cases b with
    | false => exact ⟨_, _, t, rfl, .falsified ht⟩
    | true =>
      obtain ⟨ms, result, u, hu, hran⟩ := hb r t
      rw [if_pos rfl]
      cases result with
      | error e => exact ⟨_, _, u, Act.go_bind_error hu _, .bodyBroken ht hran⟩
      | ok r' =>
        rw [Act.go_bind_ok hu]
        have hc := Act.go_check u
        cases hu' : u.isCancelled with
        | true =>
          rw [hu', if_pos rfl] at hc
          exact ⟨_, _, u, Act.go_bind_error hc _, .bodyCalledOff ht hran hu'⟩
        | false =>
          rw [hu', if_neg Bool.false_ne_true] at hc
          obtain ⟨ms', result, v, hv, hran'⟩ := ih (k + 1) r' u
          exact ⟨_, result, v, by rw [Act.go_bind_ok hc, hv], .round ht hran hu' hran'⟩

theorem runs_leaf {load : Loader σ} {step : Step} (hs : step.IsLeaf)
    (h : i.runStep load step = i.act step) : i.Runs d l base (.step step) (i.runStep load step) := by
  intro r s
  rw [h]
  by_cases he : ((i.act step r).go s).1 = .error .endless
  · exact ⟨_, _, _, Prod.ext he rfl, .stuck hs (Prod.ext he rfl)⟩
  · exact ⟨_, _, _, rfl, .leaf hs rfl he⟩

mutual

theorem runs_runStep {load : Loader σ}
    (hl : ∀ path, i.Runs d l base (.step (.load path)) (load path)) :
    ∀ step : Step, i.Runs d l base (.step step) (i.runStep load step)
  | .branch condition body => by
    intro r s
    obtain ⟨b, t, ht⟩ := Condition.answers_evaluate i.host condition s
    unfold runStep
    rw [Act.go_bind_ok ht]
    cases b with
    | true =>
      obtain ⟨ms, result, u, hu, hran⟩ := runs_runSteps hl body r t
      exact ⟨ms, result, u, hu, .taken ht hran⟩
    | false => exact ⟨_, _, t, rfl, .skipped ht⟩
  | .loop condition body => by
    intro r s
    obtain ⟨ms, result, t, ht, hran⟩ :=
      @runs_repeatWhile _ _ _ _ _ condition body _ (runs_runSteps hl body) 0 i.limit r s
    exact ⟨ms, result, t, ht, .loop hran⟩
  | .block body => by
    intro r s
    obtain ⟨ms, result, t, ht, hran⟩ := runs_runSteps hl body r s
    exact ⟨ms, result, t, ht, .block hran⟩
  | .load path => hl path
  | .craft _ => runs_leaf trivial rfl
  | .goTo .. => runs_leaf trivial rfl
  | .changeJob _ => runs_leaf trivial rfl
  | .wait _ => runs_leaf trivial rfl
  | .interact .. => runs_leaf trivial rfl
  | .log _ => runs_leaf trivial rfl
  | .name _ => runs_leaf trivial rfl
  | .unknown .. => runs_leaf trivial rfl
  | .invalid .. => runs_leaf trivial rfl

theorem runs_runSteps {load : Loader σ}
    (hl : ∀ path, i.Runs d l base (.step (.load path)) (load path)) :
    ∀ steps : List Step, i.Runs d l base (.steps steps) (i.runSteps load steps)
  | [] => fun r s => ⟨[], .ok r, s, rfl, .done⟩
  | step :: steps => by
    intro r s
    have hc := Act.go_check s
    unfold runSteps
    cases hs : s.isCancelled with
    | true =>
      rw [hs, if_pos rfl] at hc
      exact ⟨_, _, s, Act.go_bind_error hc _, .calledOff hs⟩
    | false =>
      rw [hs, if_neg Bool.false_ne_true] at hc
      rw [Act.go_bind_ok hc]
      obtain ⟨ms, result, t, ht, hran⟩  := runs_runStep hl step r.counted s
      have hgo := go_softly r (fun r => i.runStep load step r) s
      rw [ht] at hgo
      cases hr : settle r.counted result with
      | error e =>
        rw [hr] at hgo
        exact ⟨_, _, t, Act.go_bind_error hgo _, .broken hs hran hr⟩
      | ok r' =>
        rw [hr] at hgo
        obtain ⟨ms', result', u, hu, hran'⟩ := runs_runSteps hl steps r' t
        exact ⟨_, result', u, by rw [Act.go_bind_ok hgo, hu], .next hs hran hr hran'⟩

end

variable (i)

theorem runs_runIn (d l : Nat) (base : String) (steps : List Step) :
    i.Runs d l base (.steps steps) (i.runIn l base steps) := by
  induction l generalizing d base steps with
  | zero => exact runs_runSteps (fun path r s => ⟨[], _, s, rfl, .refused⟩) steps
  | succ l ih =>
    refine runs_runSteps (fun path r s => ?_) steps
    cases hp : Program.load i.files (Path.joined base path) with
    | error e => exact ⟨_, _, s, rfl, .unread hp⟩
    | ok program =>
      obtain ⟨ms, result, t, ht, hran⟩ := ih (d + 1) program.base program.steps r s
      exact ⟨_, result, t, ht, .loaded hp hran⟩

end Run

end Interpreter
end Progression
