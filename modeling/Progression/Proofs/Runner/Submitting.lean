import Progression.Proofs.Ordering
import Progression.Proofs.Runner.Watching

/-!
What the runner is sent when a batch is handed over. Whatever the runner answers, there is one
command, it comes first, and only looks follow it, and they only if the command was accepted. A
batch counts as carried out only if the last of the looks showed the runner at rest.

`Client.Submission` tells what can be sent, one case for each way a submission goes, together with
the result that goes with it. What a reply says is told by the fields of the JSON in its body
(`Json.HasField`), not by the record that is read from it.
-/

namespace Progression

/-! ### Fields of records -/

namespace Json

/-- What a record has for a field: by its name in an object, by its position in an array. -/
inductive HasField (name : String) (i : Nat) (value : Option Json) : Json → Prop
  | object {fields : List (String × Json)} (h : field? name fields = value) :
    HasField name i value (.object fields)
  | array {items : List Json} (h : items[i]? = value) : HasField name i value (.array items)

variable {name : String} {names : List String} {i : Nat} {v : Json} {a : Option Json}
  {values : List (Option Json)}

/-- What is read of a record for a field is what it has for it. -/
theorem hasField_iff (h : v.record? names = some values) (hname : names[i]? = some name) :
    v.HasField name i a ↔ values[i]? = some a := by
  cases v with
  | object fields =>
    cases h
    rw [List.getElem?_map, hname, Option.map_some, Option.some.injEq]
    exact ⟨fun h => by cases h with | object h => exact h, .object⟩
  | array items =>
    have hvalues : values[i]? = some items[i]? := by
      obtain ⟨hi, -⟩ := List.getElem?_eq_some_iff.1 hname
      rw [record?] at h
      split at h
      · cases h
        by_cases hlt : i < items.length
        · simp [List.getElem?_append_left, hlt]
        · rw [List.getElem?_append_right (by simpa using hlt), List.getElem?_replicate,
            if_pos (by simp only [List.length_map]; omega), List.getElem?_eq_none (by omega)]
      · cases h
    rw [hvalues, Option.some.injEq]
    exact ⟨fun h => by cases h with | array h => exact h, .array⟩
  | null => cases h
  | bool => cases h
  | number => cases h
  | string => cases h

/-- What is made of a record is made of what is read of it for its fields. -/
theorem exists_record {α : Type} {make : List (Option Json) → Option α} {x : α}
    (h : (do
      if !v.isUnambiguous names then none
      make (← v.record? names)) = some x) :
    ∃ values, v.record? names = some values ∧ make values = some x := by
  dsimp only at h
  split at h
  · cases h
  · exact Option.bind_eq_some_iff.1 h

/-- A flag that may be missing is set only by the word for it. -/
theorem optional_bool?_eq_true {b : Bool} (h : optional false bool? a = some b) :
    b = true ↔ a = some (.bool true) := by
  cases a with
  | none =>
    cases h
    simp
  | some v =>
    cases v with
    | bool c =>
      cases h
      simp
    | null => cases h
    | number => cases h
    | string => cases h
    | array => cases h
    | object => cases h

end Json

namespace Runner

variable {v : Json}

theorem Response.success_iff {r : Response} (h : Response.ofJson? v = some r) :
    r.success = true ↔ v.HasField "success" 0 (some (.bool true)) := by
  obtain ⟨values, hr, h⟩ := Json.exists_record h
  split at h
  · simp only [Option.bind_eq_bind, Option.bind_eq_some_iff] at h
    obtain ⟨_, hsuccess, _, -, _, -, h⟩ := h
    cases h
    rw [Json.hasField_iff hr rfl, Json.optional_bool?_eq_true hsuccess]
    simp
  · cases h

/-- A runner is at work if it says so or if it says that an order is waiting. -/
theorem State.isBusy_iff {s : State} (h : State.ofJson? v = some s) :
    s.isBusy = true ↔ v.HasField "isExecuting" 1 (some (.bool true)) ∨
      v.HasField "hasPendingOrder" 2 (some (.bool true)) := by
  obtain ⟨values, hr, h⟩ := Json.exists_record h
  split at h
  · simp only [Option.bind_eq_bind, Option.bind_eq_some_iff] at h
    obtain ⟨_, -, _, hexecuting, _, hpending, _, -, _, -, _, -, _, -, _, -, _, -, _, -, h⟩ := h
    cases h
    rw [Json.hasField_iff hr rfl, Json.hasField_iff hr rfl, isBusy, Bool.or_eq_true,
      Json.optional_bool?_eq_true hexecuting, Json.optional_bool?_eq_true hpending]
    simp
  · cases h

/-! ### Exchanges -/

/-- The JSON in the body of a reply. -/
def Reply.json? (r : Reply) : Option Json := r.body.bind Json.read?

/-- What a reply says of a command; nothing if it cannot be read. -/
def Reply.response? (r : Reply) : Option Response :=
  r.body.bind fun body => (Response.read body).toOption

/-- What the answer to a look shows. -/
def Exchange.sight (x : Exchange) : Sight :=
  match x.reply.bind Reply.state? with
  | some s => if s.isBusy then .busy else .idle
  | none => .failed

/-- A command is accepted by a reply that arrives, can be read as an answer, and says so. -/
def Exchange.Accepts (x : Exchange) : Prop :=
  ∃ r v, x.reply = some r ∧ r.json? = some v ∧ (Response.ofJson? v).isSome ∧
    v.HasField "success" 0 (some (.bool true))

/-- A look shows the runner at rest by a reply that arrives, is no error, can be read as a state,
and says neither that the runner is at work nor that an order is waiting. -/
def Exchange.Rests (x : Exchange) : Prop :=
  ∃ r v, x.reply = some r ∧ ¬ (400 ≤ r.code ∧ r.code < 600) ∧ r.json? = some v ∧
    (State.ofJson? v).isSome ∧ ¬ v.HasField "isExecuting" 1 (some (.bool true)) ∧
      ¬ v.HasField "hasPendingOrder" 2 (some (.bool true))

theorem Reply.response?_eq_some {r : Reply} {answer : Response} :
    r.response? = some answer ↔ ∃ v, r.json? = some v ∧ Response.ofJson? v = some answer := by
  have hread : ∀ body, (Response.read body).toOption = (Json.read? body).bind Response.ofJson? := by
    intro body
    unfold Response.read
    cases (Json.read? body).bind Response.ofJson? <;> rfl
  simp only [response?, json?, hread, ← Option.bind_assoc, Option.bind_eq_some_iff]

theorem Reply.state?_eq_some {r : Reply} {s : State} :
    r.state? = some s ↔ ¬ (400 ≤ r.code ∧ r.code < 600) ∧
      ∃ v, r.json? = some v ∧ State.ofJson? v = some s := by
  have hread : ∀ body, (State.read body).toOption = (Json.read? body).bind State.ofJson? := by
    intro body
    unfold State.read
    cases (Json.read? body).bind State.ofJson? <;> rfl
  have herror : r.isError = true ↔ 400 ≤ r.code ∧ r.code < 600 := by simp [isError]
  unfold state?
  split
  · next h => simp [herror.1 h]
  · next h =>
    rw [← herror, and_iff_right h]
    simp only [json?, hread, ← Option.bind_assoc, Option.bind_eq_some_iff]

theorem Exchange.accepts_iff {x : Exchange} :
    x.Accepts ↔ ∃ answer, x.reply.bind Reply.response? = some answer ∧ answer.success = true := by
  constructor
  · rintro ⟨r, v, hr, hv, hanswer, hsuccess⟩
    obtain ⟨answer, hanswer⟩ := Option.isSome_iff_exists.1 hanswer
    refine ⟨answer, ?_, (Response.success_iff hanswer).2 hsuccess⟩
    rw [hr, Option.bind_some, Reply.response?_eq_some]
    exact ⟨v, hv, hanswer⟩
  · rintro ⟨answer, hanswer, hsuccess⟩
    obtain ⟨r, hr, hanswer⟩ := Option.bind_eq_some_iff.1 hanswer
    obtain ⟨v, hv, hanswer⟩ := Reply.response?_eq_some.1 hanswer
    exact ⟨r, v, hr, hv, Option.isSome_of_eq_some hanswer,
      (Response.success_iff hanswer).1 hsuccess⟩

theorem Exchange.rests_of_sight {x : Exchange} (h : x.sight = .idle) : x.Rests := by
  unfold sight at h
  cases hs : x.reply.bind Reply.state? with
  | none =>
    rw [hs] at h
    cases h
  | some s =>
    have hidle : ¬ s.isBusy = true := by
      intro hbusy
      rw [hs] at h
      simp [hbusy] at h
    obtain ⟨r, hr, hstate⟩ := Option.bind_eq_some_iff.1 hs
    obtain ⟨hcode, v, hv, hstate⟩ := Reply.state?_eq_some.1 hstate
    rw [State.isBusy_iff hstate, not_or] at hidle
    exact ⟨r, v, hr, hcode, hv, Option.isSome_of_eq_some hstate, hidle⟩

namespace Client

variable {σ : Type} (c : Client σ)

/-- The addresses of the runner can be asked: the one that takes batches, and the one that tells
its state. -/
structure Reaches (run status : String) : Prop where
  run : c.remote.locate (c.base ++ "/run") = .ok run
  status : c.remote.locate (c.base ++ "/status") = .ok status

variable {c} {run status : String}

/-! ### Commands -/

theorem ends_command (c : Client σ) (path : String) (body : Option Json) :
    (c.command path body).Ends := (c.ends_send _ _ _).bind fun _ => ends_record _ _

/-- The answer to a command is what its reply says. -/
theorem go_command {path url : String} (hu : c.remote.locate (c.base ++ path) = .ok url)
    (body : Option Json) (line : Line σ) :
    let request : Request := { method := .post, url, body := body.map Json.render }
    ((c.command path body).go line).1.toOption =
        (c.remote.exchange request line.remote).1.bind Reply.response? ∧
      ((c.command path body).go line).2 = c.sent request line := by
  refine c.go_send_bind hu .post (body.map Json.render) (fun reply l => ?_) line
  dsimp only
  rw [go_record]
  unfold Reply.response?
  cases reply.body.bind fun body => (Response.read body).toOption with
  | none => exact ⟨rfl, rfl⟩
  | some r => exact ⟨rfl, rfl⟩

/-! ### Looks -/

/-- A look sends one request, and what it shows is what is answered. -/
theorem exchanges_looked (h : c.Reaches run status) (line : Line σ) :
    ∃ x : Exchange, x.request = { method := .get, url := status } ∧
      (c.looked line).exchanges = x :: line.exchanges ∧ c.sight line = x.sight := by
  obtain ⟨hstate, hline⟩ := c.go_state h.status (c.waited line)
  refine ⟨⟨{ method := .get, url := status },
    (c.remote.exchange { method := .get, url := status } (c.waited line).remote).1⟩, rfl, ?_, ?_⟩
  · unfold looked
    rw [hline]
    rfl
  · unfold sight
    rw [hstate]
    rfl

theorem exchanges_iterate_looked (h : c.Reaches run status) (n : Nat) (line : Line σ) :
    ∃ polls : List Exchange, (∀ x ∈ polls, x.request = { method := .get, url := status }) ∧
      (c.looked^[n] line).exchanges = polls.reverse ++ line.exchanges := by
  induction n with
  | zero => exact ⟨[], by simp, rfl⟩
  | succ n ih =>
    obtain ⟨polls, hpolls, heq⟩ := ih
    rw [Function.iterate_succ_apply']
    obtain ⟨x, hx, hnext, -⟩ := exchanges_looked h (c.looked^[n] line)
    refine ⟨polls ++ [x], ?_, ?_⟩
    · simpa [or_imp, forall_and] using ⟨hpolls, hx⟩
    · rw [hnext, heq, List.reverse_append]
      rfl

/-- What is sent while the runner is watched, in order, and how that ends. -/
structure Polls (status : String) (polls : List Exchange) (result : Except Halt Bool) : Prop where
  looks : ∀ x ∈ polls, x.request = { method := .get, url := status }
  halts : ∀ e, result = .error e → e = .endless
  /-- Only a runner that is at rest is done. -/
  rests : result = .ok true → ∃ x, polls.getLast? = some x ∧ x.Rests

/-- A watch only looks, and if it ends well then the last look showed the runner at rest. -/
theorem exchanges_awaitRest (h : c.Reaches run status) (k : Nat) (line : Line σ) :
    ∃ result l, ∃ polls : List Exchange, (c.awaitRest k {}).go line = (result, l) ∧
      l.exchanges = polls.reverse ++ line.exchanges ∧
      Polls status polls (result.map Rest.isComplete) := by
  rcases hgo : (c.awaitRest k {}).go line with ⟨e | r, l⟩
  · obtain ⟨-, rfl, rfl⟩ := (c.awaitRest_eq_error line).1 hgo
    obtain ⟨polls, hpolls, heq⟩ := exchanges_iterate_looked h k line
    refine ⟨_, _, polls, rfl, heq, hpolls, ?_, fun h => nomatch h⟩
    rintro e ⟨⟩
    rfl
  · obtain ⟨n, -, hend, rfl⟩ := (c.awaitRest_eq_ok line).1 hgo
    obtain ⟨polls, hpolls, heq⟩ := exchanges_iterate_looked h n line
    rw [Function.iterate_succ_apply']
    obtain ⟨x, hx, hnext, hsight⟩ := exchanges_looked h (c.looked^[n] line)
    refine ⟨_, _, polls ++ [x], rfl, ?_, ?_, (fun _ h => nomatch h), ?_⟩
    · rw [hnext, heq, List.reverse_append]
      rfl
    · simpa [or_imp, forall_and] using ⟨hpolls, hx⟩
    · intro hr
      have hlast : c.sight (c.looked^[n] line) = .idle := by
        cases r with
        | finished => exact hend.concludes.1
        | neverSeenBusy => exact hend.concludes.1
        | unreachable => cases hr
      exact ⟨x, List.getLast?_concat, Exchange.rests_of_sight (hsight ▸ hlast)⟩

/-! ### Submissions -/

/-- A request that hands over a batch: its body is an object with the text of the batch, and the
batch is read back from that text. -/
structure HandsOver (url : String) (batch : Batch) (r : Request) : Prop where
  method : r.method = .post
  url : r.url = url
  body : ∃ body text, r.body = some body ∧
    Json.read? body = some (.object [("json", .string text)]) ∧
    text = batch.text ∧ Batch.read text = .ok batch

/-- What a submission sends, in order, and its result. -/
inductive Submission (run status : String) (batch : Batch) :
    List Exchange → Except Halt Bool → Prop
  /-- The command fails on the way, its answer cannot be read, or it is refused. -/
  | refused {x : Exchange} (hx : HandsOver run batch x.request) (hrefused : ¬ x.Accepts) :
    Submission run status batch [x] (.ok false)
  /-- The command is accepted, and the runner is watched. -/
  | watched {x : Exchange} {polls : List Exchange} {result : Except Halt Bool}
      (hx : HandsOver run batch x.request) (haccepted : x.Accepts)
      (hpolls : Polls status polls result) : Submission run status batch (x :: polls) result

/-- The request that hands over a batch. -/
def runRequest (url : String) (batch : Batch) : Request where
  method := .post
  url := url
  body := some (Json.object [("json", .string batch.text)]).render

theorem handsOver_runRequest (url : String) (batch : Batch) :
    HandsOver url batch (runRequest url batch) where
  method := rfl
  url := rfl
  body := ⟨_, batch.text, rfl, Json.read?_render ⟨trivial, trivial⟩, rfl, Batch.read_text batch⟩

theorem go_run (h : c.Reaches run status) (batch : Batch) (line : Line σ) :
    ((c.run batch).go line).1.toOption =
        (c.remote.exchange (runRequest run batch) line.remote).1.bind Reply.response? ∧
      ((c.run batch).go line).2 = c.sent (runRequest run batch) line := go_command h.run _ line

/-- What is done with the answer to the command. -/
def followUp (c : Client σ) : Option Response → Talk σ Bool
  | none => return false
  | some response => do
    if !response.success then return false
    return (← c.awaitRest c.rounds {}).isComplete

theorem go_submit {batch : Batch} (h : batch ≠ []) (line : Line σ) :
    (c.submit batch).go line =
      (c.followUp ((c.run batch).go line).1.toOption).go ((c.run batch).go line).2 := by
  have hne : ¬ batch.isEmpty = true := by simpa using h
  unfold submit
  rw [if_neg hne]
  have hends : (c.run batch).Ends := c.ends_command _ _
  rw [Talk.go_bind_ok (hends.go_attempt line)]
  cases ((c.run batch).go line).1.toOption with
  | none => rfl
  | some r => rfl

/-- Nothing follows a command that is not accepted. -/
theorem go_followUp_of_refused {answer : Option Response}
    (h : ∀ r, answer = some r → r.success = false) (line : Line σ) :
    (c.followUp answer).go line = (.ok false, line) := by
  cases answer with
  | none => rfl
  | some r =>
    simp only [followUp, h r rfl]
    rfl

/-- A command that is accepted is followed by looks. -/
theorem go_followUp_of_accepted {r : Response} (h : r.success = true) (line : Line σ) :
    (c.followUp (some r)).go line =
      (((c.awaitRest c.rounds {}).go line).1.map Rest.isComplete,
        ((c.awaitRest c.rounds {}).go line).2) := by
  have hfollow : c.followUp (some r) = c.awaitRest c.rounds {} >>= fun r => pure r.isComplete := by
    simp only [followUp, h]
    rfl
  rw [hfollow, Talk.go_bind]
  rcases (c.awaitRest c.rounds {}).go line with ⟨e | rest, l⟩ <;> rfl

/-- **What is sent.** An empty batch is not handed over. Any other one is handed over by one
command, whatever the runner answers, and the command is followed only by looks, if anything. -/
theorem submit_sends_one_command (c : Client σ) (batch : Batch) (line : Line σ) :
    (batch = [] → (c.submit batch).go line = (.ok false, line)) ∧
    (batch ≠ [] → ∀ run status, c.Reaches run status →
      ∃ result l sent, (c.submit batch).go line = (result, l) ∧
        l.exchanges = sent.reverse ++ line.exchanges ∧
        Submission run status batch sent result) := by
  refine ⟨?_, fun hne run status h => ?_⟩
  · rintro rfl
    rfl
  obtain ⟨hanswer, hline⟩ := go_run h batch line
  rw [go_submit hne, hanswer, hline]
  have hsent : (c.sent (runRequest run batch) line).exchanges =
    ⟨runRequest run batch, (c.remote.exchange (runRequest run batch) line.remote).1⟩
      :: line.exchanges := rfl
  have hx := handsOver_runRequest run batch
  generalize (c.remote.exchange (runRequest run batch) line.remote).1 = reply at hsent ⊢
  by_cases haccepted : Exchange.Accepts ⟨runRequest run batch, reply⟩
  · obtain ⟨r, hr, hsuccess⟩ := Exchange.accepts_iff.1 haccepted
    obtain ⟨result, l, polls, hgo, hl, hpolls⟩ :=
      exchanges_awaitRest h c.rounds (c.sent (runRequest run batch) line)
    refine ⟨result.map Rest.isComplete, l, ⟨runRequest run batch, reply⟩ :: polls, ?_, ?_,
      .watched hx haccepted hpolls⟩
    · dsimp only at hr
      rw [hr, go_followUp_of_accepted hsuccess, hgo]
    · rw [hl, hsent, List.reverse_cons, List.append_assoc]
      rfl
  · have hrefused : ∀ r, reply.bind Reply.response? = some r → r.success = false := by
      intro r hr
      by_contra hsuccess
      exact haccepted (Exchange.accepts_iff.2 ⟨r, hr, by simpa using hsuccess⟩)
    exact ⟨.ok false, _, [_], go_followUp_of_refused hrefused _, hsent, .refused hx haccepted⟩

/-! ### A submission that is watched -/

theorem json?_accepted : Reply.json? ⟨200, some "[true]"⟩ = some (.array [.bool true]) := by
  have htokens : Json.Lexer.between.run? "[true]".toList =
      some [.openArray, .true, .closeArray] := by decide +kernel
  rw [Reply.json?, Option.bind_some, Json.read?, htokens]
  simp [Json.build?, Json.build?.value?, Json.build?.done?, Json.Token.plain?, Json.Frame.add]

/-- A runner that accepts a batch is watched until a look concludes. -/
theorem go_submit_showing {f : Nat → Sight} {n : Nat} {r : Rest} (hn : n < (showing f).rounds)
    (h : Watch.EndsAt f n r) {batch : Batch} (hne : batch ≠ []) :
    (((showing f).submit batch).go { remote := 0 }).1 = .ok r.isComplete := by
  let line : Line Nat :=
    { remote := 0
      exchanges := [⟨runRequest "http://localhost/run" batch, some ⟨200, some "[true]"⟩⟩] }
  have hrun : (((showing f).run batch).go { remote := 0 }).1.toOption = some { success := true } ∧
      (((showing f).run batch).go { remote := 0 }).2 = line := by
    have hreaches : (showing f).Reaches "http://localhost/run" "http://localhost/status" :=
      ⟨rfl, rfl⟩
    obtain ⟨hanswer, hline⟩ := go_run hreaches batch { remote := 0 }
    exact ⟨hanswer.trans (Reply.response?_eq_some.2 ⟨_, json?_accepted, rfl⟩), hline⟩
  have hwatch : ((showing f).awaitRest (showing f).rounds {}).go line =
      (.ok r, (showing f).looked^[n + 1] line) :=
    ((showing f).awaitRest_eq_ok line).2 ⟨n, hn, by rwa [sights_showing], rfl⟩
  rw [go_submit hne, hrun.1, hrun.2, go_followUp_of_accepted rfl, hwatch]
  rfl

/-- One order, handed over to a runner that accepts it, is seen at work once, and rests. -/
theorem submit_sends_one_command_of_order :
    let c := showing fun n => [.busy].getD n .idle
    let batch : Batch := [{ item := 5, amount := 2, kind := "Weaver" }]
    ∃ l x, ∃ polls : List Exchange, (c.submit batch).go { remote := 0 } = (.ok true, l) ∧
      l.exchanges = polls.reverse ++ [x] ∧ HandsOver "http://localhost/run" batch x.request ∧
      x.Accepts ∧ Polls "http://localhost/status" polls (.ok true) := by
  intro c batch
  have hne : batch ≠ [] := List.cons_ne_nil _ _
  obtain ⟨result, l, sent, hgo, hl, hsent⟩ :=
    (submit_sends_one_command c batch { remote := 0 }).2 hne _ _ ⟨rfl, rfl⟩
  have hend : Watch.EndsAt (fun n => [Sight.busy].getD n .idle) 1 .finished := by
    have hending : Watch.ending? {} ((List.range' 0 2).map fun n => [Sight.busy].getD n .idle) =
      some (.finished, 2) := rfl
    obtain ⟨n, -, h, hn⟩ := Watch.ending?_eq_some.1 hending
    cases hn
    exact h
  have hresult : result = .ok true :=
    (congrArg Prod.fst hgo).symm.trans (go_submit_showing (by decide) hend hne)
  subst hresult
  cases hsent with
  | watched hx haccepted hpolls => exact ⟨l, _, _, hgo, by simpa using hl, hx, haccepted, hpolls⟩

end Client
end Runner
end Progression
