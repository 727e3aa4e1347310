import Progression.Config
import Progression.Order.Batch
import Progression.Runner.Record
import Progression.Runner.Watch
import Progression.Text.Blank

/-!
Talking to the order runner. A request is answered by a reply or fails on the way; a reply has a
status and a body, and the body may fail to arrive. A batch of orders is handed over in one
request, and the runner is then watched until it rests. Which addresses can be asked, and in what
form, is for the remote to say.
-/

namespace Progression.Runner

open Progression.Text

/-- How a request is made. -/
inductive Method where
  | get | post
  deriving DecidableEq, Repr

/-- A request. -/
structure Request where
  method : Method
  url : String
  body : Option String := none
  deriving DecidableEq, Repr

/-- A reply; it has no body if that did not arrive. -/
structure Reply where
  code : Nat
  body : Option String
  deriving DecidableEq, Repr

namespace Reply

variable (r : Reply)

def isSuccess : Bool := 200 ≤ r.code && r.code < 300

def isError : Bool := 400 ≤ r.code && r.code < 600

end Reply

/-- Whatever answers requests, with a state of its own. -/
structure Remote (σ : Type) where
  /-- The form in which an address is asked, if it can be asked. -/
  locate : String → Except RemoteFault String
  /-- The reply to a request; there is none if the request fails on the way. -/
  exchange : Request → σ → Option Reply × σ
  /-- Milliseconds pass. -/
  pause : Nat → σ → σ

/-- A request that was sent, and what came of it. -/
structure Exchange where
  request : Request
  reply : Option Reply
  deriving DecidableEq, Repr

/-- The line to a remote: its state, and every exchange so far, the newest first. -/
structure Line (σ : Type) where
  remote : σ
  exchanges : List Exchange := []

/-- Talk over a line. It ends with a result or with the reason for stopping. -/
abbrev Talk (σ : Type) := ExceptT Halt (StateM (Line σ))

/-- A runner at an address. -/
structure Client (σ : Type) where
  remote : Remote σ
  base : String
  /-- Milliseconds between two looks. -/
  interval : Nat
  /-- How many looks a watch may take before it counts as endless. -/
  rounds : Nat

namespace Client

variable {σ : Type}

def baseOf (address : String) : String :=
  String.ofList (address.toList.reverse.dropWhile (· = '/')).reverse

def ofSettings (remote : Remote σ) (rounds : Nat) (s : RunnerSettings) : Client σ :=
  { remote, base := baseOf s.baseUrl, interval := s.pollInterval.toNat, rounds }

variable (c : Client σ)

def fault {α : Type} (f : RemoteFault) : Talk σ α := throw (.failed (.remote f))

/-- Sends a request; the answer is its address and the reply. -/
def send (method : Method) (path : String) (body : Option String) : Talk σ (String × Reply) := do
  match c.remote.locate (c.base ++ path) with
  | .error f => fault f
  | .ok url =>
    let request : Request := { method, url, body }
    let line ← get
    let (reply, remote) := c.remote.exchange request line.remote
    set ({ remote, exchanges := ⟨request, reply⟩ :: line.exchanges } : Line σ)
    match reply with
    | none => fault (.transport url)
    | some reply => return (url, reply)

/-- The record in the body of a reply. -/
def record {α : Type} (read : String → Except Error α) (reply : Reply) : Talk σ α :=
  match reply.body with
  | none => fault .body
  | some body =>
    match read body with
    | .ok a => return a
    | .error _ => fault .body

/-- Whether talk comes to an end without a failure. -/
def attempt {α : Type} (talk : Talk σ α) : Talk σ (Option α) :=
  tryCatch (do return some (← talk)) fun
    | .failed _ => return none
    | .endless => throw .endless

/-- Whether the runner is up: it answers with a success, and the body is `ok`. -/
def isHealthy : Talk σ Bool := do
  match ← attempt (c.send .get "/health" none) with
  | none => return false
  | some (_, reply) =>
    match reply.body with
    | some body => return reply.isSuccess && trim body.toList = "ok".toList
    | none => return false

def state : Talk σ State := do
  let (url, reply) ← c.send .get "/status" none
  if reply.isError then fault (.status reply.code url)
  record State.read reply

/-- Gives a command. The status of the reply does not matter. -/
def command (path : String) (body : Option Json) : Talk σ Response := do
  let (_, reply) ← c.send .post path (body.map Json.render)
  record Response.read reply

def run (batch : Batch) : Talk σ Response :=
  c.command "/run" (some (.object [("json", .string batch.text)]))

/-- Starts a file of orders that the runner has. -/
def runPath (path : String) : Talk σ Response := do
  if (trim path.toList).isEmpty then throw (.failed (.runner "order file path is empty"))
  c.command "/run" (some (.object [("jsonPath", .string path)]))

/-- Asks the runner to stop after its current step. -/
def stop : Talk σ Response := c.command "/stop" none

/-- Asks the runner to go on with orders that it left. -/
def resume : Talk σ Response := c.command "/resume" none

def goHome : Talk σ Response := c.command "/gohome" none

def look : Talk σ Sight := do
  modify fun line => { line with remote := c.remote.pause c.interval line.remote }
  match ← attempt c.state with
  | none => return .failed
  | some s => return if s.isBusy then .busy else .idle

def awaitRest : Nat → Watch → Talk σ Rest
  | 0, _ => throw .endless
  | n + 1, w => do
    match w.step (← c.look) with
    | .inl rest => return rest
    | .inr w => awaitRest n w

/-- Hands over a batch and watches the runner until it rests; the answer is whether the batch
counts as carried out. An empty batch is not handed over. -/
def submit (batch : Batch) : Talk σ Bool := do
  if batch.isEmpty then return false
  match ← attempt (c.run batch) with
  | none => return false
  | some response =>
    if !response.success then return false
    return (← c.awaitRest c.rounds {}).isComplete

end Client
end Progression.Runner
