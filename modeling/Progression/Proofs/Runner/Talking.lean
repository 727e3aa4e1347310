import Progression.Proofs.Except
import Progression.Runner.Client

/-!
What talk does to a line: `Talk.go` runs it. A request fails only for reasons of its own, never
because a watch took too long, so that an attempt at one always has an answer; `go_look` says what
a look at the runner shows.
-/

namespace Progression.Runner

namespace Talk

variable {σ α β : Type}

/-- The result of talk over a line, and the line it leaves. -/
def go (talk : Talk σ α) (line : Line σ) : Except Halt α × Line σ := talk.run line

variable {line : Line σ}

theorem go_bind (talk : Talk σ α) (f : α → Talk σ β) (line : Line σ) :
    (talk >>= f).go line = match talk.go line with
      | (.ok x, l) => (f x).go l
      | (.error e, l) => (.error e, l) := by
  refine (Except.run_bind talk f line).trans ?_
  unfold go
  rcases ExceptT.run talk line with ⟨e | x, l⟩ <;> rfl

theorem go_bind_ok {talk : Talk σ α} {l : Line σ} {x : α} (h : talk.go line = (.ok x, l))
    (f : α → Talk σ β) : (talk >>= f).go line = (f x).go l := by rw [go_bind, h]

theorem go_bind_error {talk : Talk σ α} {l : Line σ} {e : Halt}
    (h : talk.go line = (.error e, l)) (f : α → Talk σ β) :
    (talk >>= f).go line = (.error e, l) := by rw [go_bind, h]

/-! ### Talk that comes to an end -/

/-- Talk that ends by itself, with a result or with a failure. -/
def Ends (talk : Talk σ α) : Prop := ∀ line, (talk.go line).1 ≠ .error .endless

theorem ends_fault (f : RemoteFault) : (Client.fault f : Talk σ α).Ends := fun _ h => nomatch h

theorem Ends.bind {talk : Talk σ α} {f : α → Talk σ β} (h : talk.Ends) (hf : ∀ x, (f x).Ends) :
    (talk >>= f).Ends := by
  intro line
  have ht := h line
  rcases he : talk.go line with ⟨e | x, l⟩
  · rw [go_bind_error he]
    rintro ⟨⟩
    exact ht (by rw [he])
  · rw [go_bind_ok he]
    exact hf x l

/-- What an attempt at talk that ends comes to. -/
theorem Ends.go_attempt {talk : Talk σ α} (h : talk.Ends) (line : Line σ) :
    (Client.attempt talk).go line = (.ok (talk.go line).1.toOption, (talk.go line).2) := by
  have hrun : (Client.attempt talk).go line = match (talk >>= fun x => pure (some x)).go line with
      | (.ok x, l) => (.ok x, l)
      | (.error (.failed _), l) => (.ok none, l)
      | (.error .endless, l) => (.error .endless, l) := by
    unfold Client.attempt
    refine (Except.run_tryCatch _ _ line).trans ?_
    unfold go
    rcases ExceptT.run (talk >>= fun x => pure (some x)) line with ⟨(_ | _) | x, l⟩ <;> rfl
  have ht := h line
  rw [hrun, go_bind]
  rcases he : talk.go line with ⟨(e | -) | x, l⟩
  · rfl
  · rw [he] at ht
    exact absurd rfl ht
  · rfl

end Talk

/-! ### Looks -/

/-- What a reply tells of the state of the runner. -/
def Reply.state? (r : Reply) : Option State :=
  if r.isError then none else r.body.bind fun body => (State.read body).toOption

namespace Client

variable {σ : Type} (c : Client σ)

/-- The line that a request leaves. -/
def sent (request : Request) (line : Line σ) : Line σ where
  remote := (c.remote.exchange request line.remote).2
  exchanges := ⟨request, (c.remote.exchange request line.remote).1⟩ :: line.exchanges

/-- What comes of a request to an address that can be asked. -/
theorem go_send {path url : String} (hu : c.remote.locate (c.base ++ path) = .ok url)
    (method : Method) (body : Option String) (line : Line σ) :
    (c.send method path body).go line =
      (match (c.remote.exchange { method, url, body } line.remote).1 with
        | none => .error (.failed (.remote (.transport url)))
        | some reply => .ok (url, reply),
      c.sent { method, url, body } line) := by
  have hget : (get : Talk σ (Line σ)).go line = (.ok line, line) := rfl
  have hset : ∀ l l' : Line σ, (set l : Talk σ PUnit).go l' = (.ok (), l) := fun _ _ => rfl
  unfold send
  simp only [hu]
  rw [Talk.go_bind_ok hget]
  refine (Talk.go_bind_ok (hset (c.sent { method, url, body } line) line) _).trans ?_
  cases (c.remote.exchange { method, url, body } line.remote).1 with
  | none => rfl
  | some reply => rfl

theorem ends_send (method : Method) (path : String) (body : Option String) :
    (c.send method path body).Ends := by
  intro line
  cases hu : c.remote.locate (c.base ++ path) with
  | error f =>
    unfold send
    rw [hu]
    exact fun h => nomatch h
  | ok url =>
    rw [c.go_send hu]
    cases (c.remote.exchange { method, url, body } line.remote).1 with
    | none => exact fun h => nomatch h
    | some reply => exact fun h => nomatch h

theorem go_record {α : Type} (read : String → Except Error α) (reply : Reply) (line : Line σ) :
    (record read reply).go line =
      (match reply.body.bind fun body => (read body).toOption with
        | some a => .ok a
        | none => .error (.failed (.remote .body)), line) := by
  unfold record
  cases reply.body with
  | none => rfl
  | some body =>
    rw [Option.bind_some]
    dsimp only
    cases read body with
    | error e => rfl
    | ok a => rfl

theorem ends_record {α : Type} (read : String → Except Error α) (reply : Reply) :
    (record (σ := σ) read reply).Ends := by
  intro line
  rw [go_record]
  cases reply.body.bind fun body => (read body).toOption with
  | none => exact fun h => nomatch h
  | some a => exact fun h => nomatch h

theorem ends_state : c.state.Ends := by
  unfold state
  refine (c.ends_send _ _ _).bind fun (url, reply) => ?_
  dsimp only
  split
  · exact (Talk.ends_fault _).bind fun _ => ends_record _ _
  · exact ends_record _ _

/-- A request, and talk behind it that only reads the reply. -/
theorem go_send_bind {α : Type} {path url : String}
    (hu : c.remote.locate (c.base ++ path) = .ok url) (method : Method) (body : Option String)
    {f : String × Reply → Talk σ α} {answer : Reply → Option α}
    (hf : ∀ reply l, ((f (url, reply)).go l).1.toOption = answer reply ∧
      ((f (url, reply)).go l).2 = l) (line : Line σ) :
    let talk := c.send method path body >>= f
    (talk.go line).1.toOption =
        (c.remote.exchange { method, url, body } line.remote).1.bind answer ∧
      (talk.go line).2 = c.sent { method, url, body } line := by
  intro talk
  have hsend := c.go_send hu method body line
  cases hr : (c.remote.exchange { method, url, body } line.remote).1 with
  | none =>
    rw [hr] at hsend
    rw [Talk.go_bind_error hsend]
    exact ⟨rfl, rfl⟩
  | some reply =>
    rw [hr] at hsend
    rw [Talk.go_bind_ok hsend]
    exact hf reply _

/-- The state of the runner is what its reply tells, if the runner can be asked. -/
theorem go_state {url : String} (hu : c.remote.locate (c.base ++ "/status") = .ok url)
    (line : Line σ) :
    (c.state.go line).1.toOption =
        (c.remote.exchange { method := .get, url } line.remote).1.bind Reply.state? ∧
      (c.state.go line).2 = c.sent { method := .get, url } line := by
  refine c.go_send_bind hu .get none (fun reply l => ?_) line
  dsimp only
  unfold Reply.state?
  split
  · exact ⟨rfl, rfl⟩
  · rw [go_record]
    cases reply.body.bind fun body => (State.read body).toOption with
    | none => exact ⟨rfl, rfl⟩
    | some s => exact ⟨rfl, rfl⟩

/-- The line before a look, when the time between two looks has passed. -/
def waited (line : Line σ) : Line σ :=
  { line with remote := c.remote.pause c.interval line.remote }

/-- What the next look shows: nothing unless the runner tells its state. -/
def sight (line : Line σ) : Sight :=
  match (c.state.go (c.waited line)).1.toOption with
  | some s => if s.isBusy then .busy else .idle
  | none => .failed

/-- The line that the next look leaves. -/
def looked (line : Line σ) : Line σ := (c.state.go (c.waited line)).2

theorem go_look (line : Line σ) : c.look.go line = (.ok (c.sight line), c.looked line) := by
  have hwait : (modify fun line : Line σ =>
      { line with remote := c.remote.pause c.interval line.remote } : Talk σ Unit).go line =
        (.ok (), c.waited line) := rfl
  unfold look
  rw [Talk.go_bind_ok hwait, Talk.go_bind_ok (c.ends_state.go_attempt _)]
  unfold sight looked
  cases (c.state.go (c.waited line)).1.toOption with
  | none => rfl
  | some s => rfl

end Client

/-! ### Runners that show given sights -/

/-- How a runner answers that shows a sight. -/
def Sight.reply : Sight → Option Reply
  | .busy => some ⟨200, some "[\"\",true]"⟩
  | .idle => some ⟨200, some "[]"⟩
  | .failed => none

/-- A remote that accepts every command, and shows one sight after the other. -/
def Remote.showing (f : Nat → Sight) : Remote Nat where
  locate := .ok
  exchange r n :=
    match r.method with
    | .post => (some ⟨200, some "[true]"⟩, n)
    | .get => ((f n).reply, n + 1)
  pause _ n := n

namespace Client

def showing (f : Nat → Sight) : Client Nat where
  remote := .showing f
  base := "http://localhost"
  interval := 1
  rounds := 9

variable {f : Nat → Sight}

theorem read?_busy : Json.read? "[\"\",true]" = some (.array [.string "", .bool true]) := by
  have htokens : Json.Lexer.between.run? "[\"\",true]".toList =
      some [.openArray, .string "", .comma, .true, .closeArray] := by decide +kernel
  unfold Json.read?
  rw [htokens]
  simp [Json.build?, Json.build?.value?, Json.build?.done?, Json.Token.plain?, Json.Frame.add]

theorem read?_idle : Json.read? "[]" = some (.array []) := by
  have htokens : Json.Lexer.between.run? "[]".toList = some [.openArray, .closeArray] := by
    decide +kernel
  unfold Json.read?
  rw [htokens]
  simp [Json.build?, Json.build?.value?, Json.build?.done?]

theorem state?_reply (s : Sight) : s.reply.bind Reply.state? = match s with
    | .busy => some { isExecuting := true }
    | .idle => some {}
    | .failed => none := by
  cases s with
  | busy =>
    show (State.read "[\"\",true]").toOption = _
    rw [State.read, read?_busy]
    rfl
  | idle =>
    show (State.read "[]").toOption = _
    rw [State.read, read?_idle]
    rfl
  | failed => rfl

theorem looks_showing (line : Line Nat) : (showing f).sight line = f line.remote ∧
    ((showing f).looked line).remote = line.remote + 1 := by
  have hu : (showing f).remote.locate ((showing f).base ++ "/status") =
    .ok ("http://localhost" ++ "/status") := rfl
  obtain ⟨hs, hl⟩ := (showing f).go_state hu ((showing f).waited line)
  refine ⟨?_, ?_⟩
  · have hreply := state?_reply (f line.remote)
    unfold sight
    rw [hs]
    show (match (f line.remote).reply.bind Reply.state? with
      | some s => if s.isBusy then Sight.busy else .idle
      | none => .failed) = f line.remote
    rw [hreply]
    cases f line.remote <;> rfl
  · unfold looked
    rw [hl]
    rfl

end Client
end Progression.Runner
