import Progression.Program.Basic
import Progression.Switch

/-!
Running programs. Steps are carried out in order. A step that fails is counted and passed over;
only a call to stop ends a run. Loops run their body a limited number of times, and programs load
programs to a limited depth, so every run ends when the single steps do.
-/

namespace Progression

/-- What happened during a run. -/
structure RunReport where
  executed : Nat := 0
  failures : Nat := 0
  /-- Loops that were stopped while their condition still held. -/
  ceilings : Nat := 0
  unknown : Nat := 0
  deriving DecidableEq, Repr, Inhabited

/-- What running programs needs besides the game. -/
structure Interpreter (σ : Type) extends Setup σ where
  limits : Limits
  files : Tree

namespace Interpreter

variable {σ : Type} (i : Interpreter σ)

/-- The failure of a batch, which names its first order. -/
def orderFailure (batch : Batch) : Error :=
  let (item, amount) := match batch with
    | o :: _ => (o.item, o.amount)
    | [] => (0, 0)
  .order item amount "crafting service reported failure"

def craft (orders : String) : Act σ Unit := do
  match Batch.read orders with
  | .error e => Act.fail e
  | .ok batch =>
    Act.publishDirective "Crafting" batch.summary
    if !(← i.host.attempt (.order batch)) then Act.fail (orderFailure batch)

def meet (kind : Interaction) (r : Interaction.Request) : Act σ Unit := do
  match ← i.interact kind r with
  | .succeeded => return
  | .cancelled => Act.fail .cancelled
  | .navigationFailed => Act.fail (.navigation r.zone)
  | .timedOut => Act.fail (.interactionTimeout r.actor r.objective)

/-- A step done, whatever came of it: a failure is counted, a call to stop is passed on. -/
def softly (r : RunReport) (act : RunReport → Act σ RunReport) : Act σ RunReport :=
  let r := { r with executed := r.executed + 1 }
  tryCatch (act r) fun
    | .failed e =>
      if e.isCancelled then throw (.failed e) else return { r with failures := r.failures + 1 }
    | .endless => throw .endless

/-- The body of a loop, at most so many times, as long as the condition holds. -/
def repeatWhile (holds : Act σ Bool) (body : RunReport → Act σ RunReport) :
    Nat → RunReport → Act σ RunReport
  | 0, r => do
    if ← holds then return { r with ceilings := r.ceilings + 1 } else return r
  | n + 1, r => do
    if ← holds then
      let r ← body r
      Act.check
      repeatWhile holds body n r
    else return r

/-- How a program that is loaded is run. -/
abbrev Loader (σ : Type) := (path : String) → RunReport → Act σ RunReport

mutual

def runStep (load : Loader σ) : Step → RunReport → Act σ RunReport
  | .branch condition body, r => do
    if ← Condition.evaluate i.host.look condition then runSteps load body r else return r
  | .loop condition body, r =>
    repeatWhile (Condition.evaluate i.host.look condition) (fun r => runSteps load body r)
      i.limits.iterations.toNat r
  | .block body, r => runSteps load body r
  | .load path, r => load path r
  | .unknown .., r => return { r with unknown := r.unknown + 1 }
  | .craft orders, r => do
    i.craft orders
    return r
  | .goTo zone place, r => do
    if !(← i.host.attempt (.goTo zone place)) then Act.fail (.navigation zone)
    return r
  | .changeJob job, r => do
    if !(← i.switchAndEquip job) then Act.fail (.classSwitch job.title)
    return r
  | .wait length, r => do
    Act.rest (millisOfNanos length)
    return r
  | .interact kind actor objective zone place timeout option, r => do
    let request := i.request actor objective zone place
    i.meet kind { request with
      timeout := (timeout.map fun t => t.toNat * 1000).getD request.timeout, option }
    return r
  | .log line, r => do
    Act.log line
    return r
  | .name _, r => return r
  | .invalid tag line reason, _ => Act.fail (.parse tag line reason)

def runSteps (load : Loader σ) : List Step → RunReport → Act σ RunReport
  | [], r => return r
  | step :: steps, r => do
    Act.check
    let r ← softly r fun r => runStep load step r
    runSteps load steps r

end

/-- Steps of a program in a directory, where programs may still be loaded to some depth. -/
def runIn : Nat → String → List Step → RunReport → Act σ RunReport
  | 0, base, steps, r =>
    i.runSteps (fun path _ =>
      let limit := i.limits.includeDepth.toNat
      Act.fail (.includeDepth (Path.joined base path) (limit + 1) limit)) steps r
  | depth + 1, base, steps, r =>
    i.runSteps (fun path r => do
      match Program.load i.files (Path.joined base path) with
      | .error e => Act.fail e
      | .ok program => runIn depth program.base program.steps r) steps r

def execute (p : Program) : Act σ RunReport :=
  i.runIn i.limits.includeDepth.toNat p.base p.steps {}

/-- Runs a program; the answer is whether it ran to its end. -/
def runsThrough (p : Program) : Act σ Bool :=
  tryCatch (do let _ ← i.execute p; return true) fun
    | .failed _ => return false
    | .endless => throw .endless

end Interpreter
end Progression
