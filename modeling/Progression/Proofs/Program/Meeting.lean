import Mathlib.Logic.Relation
import Progression.Proofs.Program.Course

/-!
What a run meets. `Enters` leads from a call of a task to the calls that it makes, and every mark
on the way of a run is set by a call that the run comes to (`met_of_ran`).
-/

namespace Progression

/-- A task that is begun: how deep, with how many levels left, for a program in which directory,
with which report, and in which session. -/
structure Call (σ : Type) where
  depth : Nat
  left : Nat
  base : String
  task : Task
  report : RunReport
  session : Session σ

namespace Interpreter

variable {σ : Type} (i : Interpreter σ)

/-- What comes of a call. -/
def Comes (c : Call σ) (ms : List Mark) (result : Except Halt RunReport) (t : Session σ) : Prop :=
  i.Ran c.depth c.left c.base c.task c.report c.session ms result t

/-- A call begins another, on the way to what comes of it. -/
inductive Enters : Call σ → Call σ → Prop
  | first {d l base step steps r s} : s.isCancelled = false →
    Enters ⟨d, l, base, .steps (step :: steps), r, s⟩ ⟨d, l, base, .step step, r.counted, s⟩
  | next {d l base step steps r s ms result t r'} : s.isCancelled = false →
    i.Ran d l base (.step step) r.counted s ms result t → settle r.counted result = .ok r' →
    Enters ⟨d, l, base, .steps (step :: steps), r, s⟩ ⟨d, l, base, .steps steps, r', t⟩
  | taken {d l base condition body r s t} :
    (Condition.evaluate i.host.look condition).go s = (.ok true, t) →
    Enters ⟨d, l, base, .step (.branch condition body), r, s⟩ ⟨d, l, base, .steps body, r, t⟩
  | block {d l base body r s} :
    Enters ⟨d, l, base, .step (.block body), r, s⟩ ⟨d, l, base, .steps body, r, s⟩
  | loop {d l base condition body r s} :
    Enters ⟨d, l, base, .step (.loop condition body), r, s⟩
      ⟨d, l, base, .rounds condition body 0 i.limit, r, s⟩
  | body {d l base condition body k n r s t} :
    (Condition.evaluate i.host.look condition).go s = (.ok true, t) →
    Enters ⟨d, l, base, .rounds condition body k (n + 1), r, s⟩ ⟨d, l, base, .steps body, r, t⟩
  | round {d l base condition body k n r s t ms r' u} :
    (Condition.evaluate i.host.look condition).go s = (.ok true, t) →
    i.Ran d l base (.steps body) r t ms (.ok r') u → u.isCancelled = false →
    Enters ⟨d, l, base, .rounds condition body k (n + 1), r, s⟩
      ⟨d, l, base, .rounds condition body (k + 1) n, r', u⟩
  | loaded {d l base path program r s} :
    Program.load i.files (Path.joined base path) = .ok program →
    Enters ⟨d, l + 1, base, .step (.load path), r, s⟩
      ⟨d + 1, l, program.base, .steps program.steps, r, s⟩

/-- A run of a program comes to a call. -/
def Meets (p : Program) (s : Session σ) : Call σ → Prop :=
  Relation.ReflTransGen i.Enters ⟨0, i.maxDepth, p.base, .steps p.steps, {}, s⟩

/-- A mark is set by a call: a step is begun or stuck, a program is read for a step that loads it, a
loop is left. -/
def Sets (c : Call σ) : Mark → Prop
  | .began step => c.task = .step step
  | .stuck step => c.task = .step step
  | .opened path depth =>
    ∃ p, c.task = .step (.load p) ∧ path = Path.joined c.base p ∧ depth = c.depth + 1
  | .looped condition .. => ∃ body k n, c.task = .rounds condition body k n

variable {i}

/-- Whatever is marked in a run is marked by a call that is met. -/
theorem met_of_ran {d l : Nat} {base : String} {task : Task} {r : RunReport} {s t : Session σ}
    {ms : List Mark} {result : Except Halt RunReport} (h : i.Ran d l base task r s ms result t)
    {m : Mark} (hm : m ∈ ms) :
    ∃ c, Relation.ReflTransGen i.Enters ⟨d, l, base, task, r, s⟩ c ∧ Sets c m := by
  induction h with
  | done => cases hm
  | calledOff => cases hm
  | broken hs _ _ ih =>
    rcases List.mem_cons.1 hm with rfl | hm
    · exact ⟨_, .single (.first hs), rfl⟩
    · obtain ⟨c, hc, hset⟩ := ih hm
      exact ⟨c, hc.head (.first hs), hset⟩
  | next hs hran hsettled _ ih ih' =>
    rcases List.mem_cons.1 hm with rfl | hm
    · exact ⟨_, .single (.first hs), rfl⟩
    · rcases List.mem_append.1 hm with hm | hm
      · obtain ⟨c, hc, hset⟩ := ih hm
        exact ⟨c, hc.head (.first hs), hset⟩
      · obtain ⟨c, hc, hset⟩ := ih' hm
        exact ⟨c, hc.head (.next hs hran hsettled), hset⟩
  | taken ht _ ih =>
    obtain ⟨c, hc, hset⟩ := ih hm
    exact ⟨c, hc.head (.taken ht), hset⟩
  | skipped => cases hm
  | block _ ih =>
    obtain ⟨c, hc, hset⟩ := ih hm
    exact ⟨c, hc.head .block, hset⟩
  | loop _ ih =>
    obtain ⟨c, hc, hset⟩ := ih hm
    exact ⟨c, hc.head .loop, hset⟩
  | falsified =>
    obtain rfl := List.mem_singleton.1 hm
    exact ⟨_, .refl, _, _, _, rfl⟩
  | ceiling =>
    obtain rfl := List.mem_singleton.1 hm
    exact ⟨_, .refl, _, _, _, rfl⟩
  | bodyBroken ht _ ih =>
    rcases List.mem_append.1 hm with hm | hm
    · obtain ⟨c, hc, hset⟩ := ih hm
      exact ⟨c, hc.head (.body ht), hset⟩
    · obtain rfl := List.mem_singleton.1 hm
      exact ⟨_, .refl, _, _, _, rfl⟩
  | bodyCalledOff ht _ _ ih =>
    rcases List.mem_append.1 hm with hm | hm
    · obtain ⟨c, hc, hset⟩ := ih hm
      exact ⟨c, hc.head (.body ht), hset⟩
    · obtain rfl := List.mem_singleton.1 hm
      exact ⟨_, .refl, _, _, _, rfl⟩
  | round ht hran hu _ ih ih' =>
    rcases List.mem_append.1 hm with hm | hm
    · obtain ⟨c, hc, hset⟩ := ih hm
      exact ⟨c, hc.head (.body ht), hset⟩
    · obtain ⟨c, hc, hset⟩ := ih' hm
      exact ⟨c, hc.head (.round ht hran hu), hset⟩
  | refused => cases hm
  | unread =>
    obtain rfl := List.mem_singleton.1 hm
    exact ⟨_, .refl, _, rfl, rfl, rfl⟩
  | loaded hp _ ih =>
    rcases List.mem_cons.1 hm with rfl | hm
    · exact ⟨_, .refl, _, rfl, rfl, rfl⟩
    · obtain ⟨c, hc, hset⟩ := ih hm
      exact ⟨c, hc.head (.loaded hp), hset⟩
  | leaf => cases hm
  | stuck =>
    obtain rfl := List.mem_singleton.1 hm
    exact ⟨_, .refl, rfl⟩

end Interpreter
end Progression
