import Progression.Cli.Invocation
import Progression.Cli.Plan
import Progression.Runner.Client

/-!
The commands that talk to the order runner. Objects made for the output list their fields by name,
in the order of the names; the state of the runner lists its own as it was written.
-/

namespace Progression.Cli

open Progression.Number (text)
open Progression.Runner

/-- The words for why talk came to no end. -/
def haltMessage : Halt → String
  | .failed e => e.message
  | .endless => "the order runner never rests"

/-- Talk over a line, with a report on what came of it. -/
def converse {σ α : Type} (talk : Talk σ α) (line : Line σ) (report : Except Halt α → Report) :
    Report × Line σ :=
  let (r, line) := talk.run line
  (report r, line)

/-- A truth value, in words. -/
def truth (b : Bool) : String := if b then "true" else "false"

/-- The fields of an object in the order of their names. -/
def byName (fields : List (String × Json)) : List (String × Json) :=
  fields.mergeSort fun a b => decide (a.1 ≤ b.1)

/-- The state of the runner as part of an object made for the output. -/
def stateJson (s : State) : Json :=
  match s.toJson with
  | .object fields => .object (byName fields)
  | v => v

/-- The lines that tell the state of the runner. -/
def stateLines (s : State) : List String :=
  ["state:      " ++ s.state, "busy:       " ++ truth s.isBusy,
    "executing:  " ++ truth s.isExecuting, "pending:    " ++ truth s.hasPendingOrder,
    "incomplete: " ++ truth s.hasIncompleteOrders]
  ++ (if s.currentFile = "" then [] else ["file:       " ++ s.currentFile])
  ++ (if s.characterName = "" then []
    else ["character:  " ++ s.characterName ++ " @ " ++ s.worldName])
  ++ ["api:        " ++ s.apiStatus, "bot:        " ++ (if s.botRunning then "running" else "stopped"),
    "runtime:    " ++ text s.runtimeSeconds.toNat ++ "s"]

section Commands

variable {σ : Type} (c : Client σ) (json : Bool) (line : Line σ)

/-- The command that tells whether the runner is up. -/
def health : Report × Line σ :=
  let talk : Talk σ (Bool × Option State) := do
    if !(← c.isHealthy) then return (false, none)
    return (true, ← Client.attempt c.state)
  converse talk line fun r =>
    let (healthy, state) := r.toOption.getD (false, none)
    (if json then
        Report.ofJson (.object [("healthy", .bool healthy),
          ("status", Document.optional stateJson state), ("url", .string c.base)])
      else if healthy then
        .ofLines ((c.base ++ ": ok") :: state.toList.map fun s => "busy: " ++ truth s.isBusy)
      else {}).failIf (!healthy) ("runner at " ++ c.base ++ " is not healthy")

/-- The command that shows the state of the runner. -/
def status : Report × Line σ :=
  converse c.state line fun
    | .error h => .failed ("runner at " ++ c.base ++ " did not report status: " ++ haltMessage h)
    | .ok s => if json then .ofJson s.toJson else .ofLines (c.base :: stateLines s)

def Control.talk : Control → Talk σ Response
  | .stop => c.stop
  | .resume => c.resume
  | .home => c.goHome
  | .runFile path => c.runPath path

/-- The command that gives a command to the runner. -/
def control (k : Control) : Report × Line σ :=
  converse (k.talk c) line fun
    | .error h => .failed (k.name ++ " failed against " ++ c.base ++ ": " ++ haltMessage h)
    | .ok r =>
      (if json then
          Report.ofJson (.object [("command", .string k.name), ("message", .string r.text),
            ("success", .bool r.success), ("url", .string c.base)])
        else if r.success then .ofLines [k.name ++ ": " ++ r.text]
        else {}).failIf (!r.success) ("runner refused " ++ k.name ++ ": " ++ r.text)

/-- Hands over a batch and tells what came of it. -/
def handOver (batch : Batch) : Report × Line σ :=
  converse (c.submit batch) line fun r =>
    let done := r.toOption.getD false
    (if json then
        Report.ofJson (.object [("orders", .string batch.summary), ("success", .bool done),
          ("url", .string c.base)])
      else if done then .ofLines ["Order finished: " ++ batch.summary]
      else {}).failIf (!done) ("order did not complete on runner at " ++ c.base)

/-- The command that hands over one order, or shows it. -/
def order (t : OrderTask) : Report × Line σ :=
  if t.amount = 0 then (.failed "--amount must be at least 1", line)
  else match Job.read t.job with
    | .error e => (.failed e.message, line)
    | .ok j =>
      let batch : Batch :=
        [{ Order.new t.item t.amount j with hq := t.hq, quickSynth := t.quickSynth }]
      if t.dryRun then (.ofLines [batch.text], line) else handOver c json line batch

end Commands
end Progression.Cli
