import Progression.Proofs.Program.Bounds

/-!
What a report counts. `Followed` tells how steps are followed to their end, without any report: each
step that is begun has one verdict, and the steps that are begun on its way come right behind it. A
report is the tally of these verdicts (`tally_of_ran`, by induction on the course). A step that
fails has begun no others, and the steps around it go on as if it had been done.
-/

namespace Progression

variable {σ : Type}

/-- What becomes of a step that is begun. -/
inductive Verdict where
  | done
  | failed (e : Error)
  /-- Its tag is unknown. -/
  | unknown
  /-- It is a loop that was left with its condition still true. -/
  | ceiling
  deriving DecidableEq, Repr

namespace Verdict

def isFailed : Verdict → Bool
  | failed _ => true
  | _ => false

def isUnknown : Verdict → Bool
  | unknown => true
  | _ => false

def isCeiling : Verdict → Bool
  | ceiling => true
  | _ => false

end Verdict

/-- Steps in the order in which they are begun, with what becomes of each. -/
abbrev Verdicts := List (Step × Verdict)

namespace Verdicts

/-- How many steps meet a verdict of one kind. -/
def count (vs : Verdicts) (kind : Verdict → Bool) : Nat := vs.countP fun x => kind x.2

@[simp] theorem count_nil (kind : Verdict → Bool) : count [] kind = 0 := rfl

@[simp] theorem count_append (vs ws : Verdicts) (kind : Verdict → Bool) :
    count (vs ++ ws) kind = count vs kind + count ws kind := List.countP_append

@[simp] theorem count_cons (step : Step) (v : Verdict) (vs : Verdicts) (kind : Verdict → Bool) :
    count ((step, v) :: vs) kind = count vs kind + (kind v).toNat := by
  cases h : kind v <;> simp [count, h]

/-- Each step has one verdict, of one kind. -/
theorem counts_le_length (vs : Verdicts) :
    vs.count Verdict.isFailed + vs.count Verdict.isUnknown + vs.count Verdict.isCeiling ≤
      vs.length := by
  induction vs with
  | nil => exact Nat.le_refl 0
  | cons x vs ih =>
    obtain ⟨step, v⟩ := x
    have hv : v.isFailed.toNat + v.isUnknown.toNat + v.isCeiling.toNat ≤ 1 := by
      cases v <;> simp [Verdict.isFailed, Verdict.isUnknown, Verdict.isCeiling]
    simp only [count_cons, List.length_cons]
    omega

end Verdicts

/-- The steps that were begun, the first one first. -/
def stepsBegun (ms : List Mark) : List Step :=
  ms.filterMap fun
    | .began step => some step
    | _ => none

/-! ### Tallies -/

namespace RunReport

/-- A report after a step has met a verdict. -/
def judged (r : RunReport) : Verdict → RunReport
  | .done => r
  | .failed _ => { r with failures := r.failures + 1 }
  | .unknown => { r with unknown := r.unknown + 1 }
  | .ceiling => { r with ceilings := r.ceilings + 1 }

/-- A report after steps that met their verdicts. -/
def after (r : RunReport) (vs : Verdicts) : RunReport where
  executed := r.executed + vs.length
  failures := r.failures + vs.count Verdict.isFailed
  ceilings := r.ceilings + vs.count Verdict.isCeiling
  unknown := r.unknown + vs.count Verdict.isUnknown

variable (r : RunReport) (vs ws : Verdicts)

@[simp] theorem after_nil : r.after [] = r := rfl

theorem after_append : r.after (vs ++ ws) = (r.after vs).after ws := by
  simp [after, Nat.add_assoc]

/-- A step is counted when it is begun, and its verdict when all that it begins is over. -/
theorem after_cons (step : Step) (v : Verdict) :
    r.after ((step, v) :: vs) = (r.counted.after vs).judged v := by
  have hlen : r.executed + (vs.length + 1) = r.executed + 1 + vs.length := by omega
  cases v <;> simp [after, judged, counted, hlen, Verdict.isFailed, Verdict.isCeiling,
    Verdict.isUnknown, Nat.add_assoc]

end RunReport

section Begun

variable (ms ms' : List Mark)

theorem stepsBegun_append : stepsBegun (ms ++ ms') = stepsBegun ms ++ stepsBegun ms' :=
  List.filterMap_append

theorem stepsBegun_began (step : Step) :
    stepsBegun (.began step :: ms) = step :: stepsBegun ms := rfl

end Begun

namespace Interpreter

section Following

variable (i : Interpreter σ)

mutual

/-- A step is carried out, for a program in a directory, with so many levels left: what becomes of
it, and of the steps that it begins. It fails by itself, or whatever it begins is followed to its
end. -/
inductive CarriedOut : Nat → String → Step → Session σ → Verdict → Verdicts → Session σ → Prop
  | skipped {l base condition body s t} :
    (Condition.evaluate i.host.look condition).go s = (.ok false, t) →
    CarriedOut l base (.branch condition body) s .done [] t
  | taken {l base condition body s t vs u} :
    (Condition.evaluate i.host.look condition).go s = (.ok true, t) →
    Followed l base body t vs u → CarriedOut l base (.branch condition body) s .done vs u
  | block {l base body s vs t} : Followed l base body s vs t →
    CarriedOut l base (.block body) s .done vs t
  | loop {l base condition body s held vs t} : Repeated l base condition body i.limit s held vs t →
    CarriedOut l base (.loop condition body) s (if held then .ceiling else .done) vs t
  | refused {base path s} : CarriedOut 0 base (.load path) s
    (.failed (.includeDepth (Path.joined base path) (i.maxDepth + 1) i.maxDepth)) [] s
  | unread {l base path e s} : Program.load i.files (Path.joined base path) = .error e →
    e.isCancelled = false →
    CarriedOut (l + 1) base (.load path) s (.failed e) [] s
  | loaded {l base path program s vs t} :
    Program.load i.files (Path.joined base path) = .ok program →
    Followed l program.base program.steps s vs t →
    CarriedOut (l + 1) base (.load path) s .done vs t
  | unknown {l base tag line s} : CarriedOut l base (.unknown tag line) s .unknown [] s
  | done {l base step s t} : step.IsLeaf → (∀ r, (i.act step r).go s = (.ok r, t)) →
    CarriedOut l base step s .done [] t
  | failed {l base step s e t} : step.IsLeaf →
    (∀ r, (i.act step r).go s = (.error (.failed e), t)) → e.isCancelled = false →
    CarriedOut l base step s (.failed e) [] t

/-- Steps are followed, each of them, whatever becomes of those before it. -/
inductive Followed : Nat → String → List Step → Session σ → Verdicts → Session σ → Prop
  | nil {l base s} : Followed l base [] s [] s
  | cons {l base step steps s v vs t ws u} : s.isCancelled = false →
    CarriedOut l base step s v vs t → Followed l base steps t ws u →
    Followed l base (step :: steps) s ((step, v) :: (vs ++ ws)) u

/-- The body of a loop is followed as long as the condition holds, so many times at most: whether
the condition held in the end. -/
inductive Repeated : Nat → String → String → List Step → Nat → Session σ → Bool → Verdicts →
    Session σ → Prop
  | over {l base condition body n s t} :
    (Condition.evaluate i.host.look condition).go s = (.ok false, t) →
    Repeated l base condition body n s false [] t
  | ceiling {l base condition body s t} :
    (Condition.evaluate i.host.look condition).go s = (.ok true, t) →
    Repeated l base condition body 0 s true [] t
  | round {l base condition body n s t vs u held ws v} :
    (Condition.evaluate i.host.look condition).go s = (.ok true, t) →
    Followed l base body t vs u → u.isCancelled = false →
    Repeated l base condition body n u held ws v →
    Repeated l base condition body (n + 1) s held (vs ++ ws) v

end

variable {i} in
/-- A step that fails is all there is to its failure: it has begun no others, and it cannot be
carried out, or loads a program that cannot be had. -/
theorem CarriedOut.of_failed {l : Nat} {base : String} {step : Step} {s t : Session σ} {e : Error}
    {vs : Verdicts} (h : i.CarriedOut l base step s (.failed e) vs t) :
    vs = [] ∧ (step.IsLeaf ∨ ∃ path, step = .load path ∧ t = s) := by
  generalize hv : Verdict.failed e = v at h
  cases h with
  | @loop _ _ _ _ _ held => cases held <;> cases hv
  | refused => exact ⟨rfl, .inr ⟨_, rfl, rfl⟩⟩
  | unread => exact ⟨rfl, .inr ⟨_, rfl, rfl⟩⟩
  | failed hs => exact ⟨rfl, .inl hs⟩
  | _ => cases hv

end Following

variable {i : Interpreter σ}

/-! ### Steps without a body -/

/-- Work that leaves a report as it is leaves any report so. -/
theorem go_bind_pure {α : Type} (a : Act σ α) (s : Session σ) :
    (∃ t, ∀ r : RunReport, (a >>= fun _ => pure r).go s = (.ok r, t)) ∨
      ∃ e t, ∀ r : RunReport, (a >>= fun _ => pure r).go s = (.error e, t) := by
  rcases h : a.go s with ⟨e | x, t⟩
  · exact .inr ⟨e, t, fun r => Act.go_bind_error h _⟩
  · exact .inl ⟨t, fun r => by rw [Act.go_bind_ok h]; rfl⟩

theorem go_unless (a : Act σ Bool) (e : Error) (s : Session σ) :
    (∃ t, ∀ r : RunReport, (do
      if !(← a) then Act.fail e
      return r : Act σ RunReport).go s = (.ok r, t)) ∨
    ∃ e' t, ∀ r : RunReport, (do
      if !(← a) then Act.fail e
      return r : Act σ RunReport).go s = (.error e', t) := by
  rcases h : a.go s with ⟨e' | b, t⟩
  · exact .inr ⟨e', t, fun r => Act.go_bind_error h _⟩
  · cases b with
    | true => exact .inl ⟨t, fun r => by rw [Act.go_bind_ok h]; rfl⟩
    | false => exact .inr ⟨.failed e, t, fun r => by rw [Act.go_bind_ok h]; rfl⟩

/-- A step without a body does not read the report, and only an unknown tag changes it. -/
theorem act_cases {step : Step} (hs : step.IsLeaf) (s : Session σ) :
    (∃ tag line, step = .unknown tag line) ∨ (∃ t, ∀ r, (i.act step r).go s = (.ok r, t)) ∨
      ∃ e t, ∀ r, (i.act step r).go s = (.error e, t) := by
  cases step with
  | branch => exact absurd hs id
  | loop => exact absurd hs id
  | block => exact absurd hs id
  | load => exact absurd hs id
  | unknown tag line => exact .inl ⟨tag, line, rfl⟩
  | invalid => exact .inr (.inr ⟨_, s, fun _ => rfl⟩)
  | name => exact .inr (.inl ⟨s, fun _ => rfl⟩)
  | craft => exact .inr (go_bind_pure _ s)
  | wait => exact .inr (go_bind_pure _ s)
  | interact => exact .inr (go_bind_pure _ s)
  | log => exact .inr (go_bind_pure _ s)
  | goTo => exact .inr (go_unless _ _ s)
  | changeJob => exact .inr (go_unless _ _ s)

variable {d l : Nat} {base : String} {task : Task} {r : RunReport} {s t : Session σ}
  {ms : List Mark} {result : Except Halt RunReport}

theorem settle_failed {e : Error} {r' : RunReport} (h : settle r (.error (.failed e)) = .ok r') :
    e.isCancelled = false ∧ r' = r.judged (.failed e) := by
  have hs : settle r (.error (.failed e)) =
      if e.isCancelled then .error (.failed e) else .ok (r.judged (.failed e)) := rfl
  rw [hs] at h
  cases he : e.isCancelled with
  | true =>
    rw [if_pos he] at h
    cases h
  | false =>
    rw [if_neg (ne_true_of_eq_false he)] at h
    exact ⟨rfl, (Except.ok.inj h).symm⟩

/-- What steps make of a step without a body. -/
theorem carriedOut_of_act {step : Step} (hs : step.IsLeaf) (hgo : (i.act step r).go s = (result, t))
    {r' : RunReport} (hr : settle r result = .ok r') :
    ∃ v, i.CarriedOut l base step s v [] t ∧ r' = r.judged v := by
  rcases act_cases (i := i) hs s with ⟨tag, line, rfl⟩ | ⟨u, hact⟩ | ⟨e, u, hact⟩
  · cases hgo
    cases hr
    exact ⟨.unknown, .unknown, rfl⟩
  · cases (hact r).symm.trans hgo
    cases hr
    exact ⟨.done, .done hs hact, rfl⟩
  · cases (hact r).symm.trans hgo
    cases e with
    | endless => cases hr
    | failed e =>
      obtain ⟨he, rfl⟩ := settle_failed hr
      exact ⟨.failed e, .failed hs hact he, rfl⟩

/-! ### The tally of a run -/

/-- What a task comes to, if it comes to its end: its verdicts, which make the report. -/
def Tallies (i : Interpreter σ) (l : Nat) (base : String) (r : RunReport) (s t : Session σ)
    (ms : List Mark) (result : Except Halt RunReport) : Task → Prop
  | .step step => ∀ r', settle r result = .ok r' → ∃ v vs, i.CarriedOut l base step s v vs t ∧
      vs.map Prod.fst = stepsBegun ms ∧ r' = (r.after vs).judged v
  | .steps steps => ∀ r', result = .ok r' → ∃ vs, i.Followed l base steps s vs t ∧
      vs.map Prod.fst = stepsBegun ms ∧ r' = r.after vs
  | .rounds condition body _ n => ∀ r', result = .ok r' → ∃ held vs,
      i.Repeated l base condition body n s held vs t ∧
      vs.map Prod.fst = stepsBegun ms ∧ r' = (r.after vs).judged (if held then .ceiling else .done)

/-- What is begun within a step does not fail it: only a call to stop gets out of steps. -/
theorem ok_of_settle (h : i.Ran d l base task r s ms result t)
    (hq : ∀ e, Stops ms e task → e.IsQuit) {r₀ r' : RunReport} (hr : settle r₀ result = .ok r') :
    result = .ok r' := by
  rcases settle_eq_ok hr with hok | ⟨e, he, hn, -⟩
  · exact hok
  · exact absurd (hq e (stops_of_ran h he)) hn

theorem tally_of_ran (h : i.Ran d l base task r s ms result t) :
    i.Tallies l base r s t ms result task := by
  induction h with
  | done =>
    rintro r' ⟨⟩
    exact ⟨[], .nil, rfl, rfl⟩
  | calledOff => rintro r' ⟨⟩
  | broken => rintro r' ⟨⟩
  | next hs _ hset _ ih ih' =>
    intro r' hr
    obtain ⟨v, vs, hv, hms, rfl⟩ := ih _ hset
    obtain ⟨ws, hws, hms', rfl⟩ := ih' r' hr
    refine ⟨_, .cons hs hv hws, ?_, ?_⟩
    · rw [stepsBegun_began, stepsBegun_append, ← hms, ← hms', List.map_cons, List.map_append]
    · rw [← List.cons_append, RunReport.after_append, RunReport.after_cons]
  | taken ht hran ih =>
    intro r' hr
    obtain ⟨vs, hvs, hms, rfl⟩ := ih r' (ok_of_settle hran (fun _ => id) hr)
    exact ⟨.done, vs, .taken ht hvs, hms, rfl⟩
  | skipped ht =>
    rintro r' ⟨⟩
    exact ⟨.done, [], .skipped ht, rfl, rfl⟩
  | block hran ih =>
    intro r' hr
    obtain ⟨vs, hvs, hms, rfl⟩ := ih r' (ok_of_settle hran (fun _ => id) hr)
    exact ⟨.done, vs, .block hvs, hms, rfl⟩
  | loop hran ih =>
    intro r' hr
    obtain ⟨held, vs, hvs, hms, rfl⟩ := ih r' (ok_of_settle hran (fun _ => id) hr)
    exact ⟨_, vs, .loop hvs, hms, rfl⟩
  | falsified ht =>
    rintro r' ⟨⟩
    exact ⟨false, [], .over ht, rfl, rfl⟩
  | ceiling ht =>
    rintro r' ⟨⟩
    exact ⟨true, [], .ceiling ht, rfl, rfl⟩
  | bodyBroken => rintro r' ⟨⟩
  | bodyCalledOff => rintro r' ⟨⟩
  | round ht _ hu _ ih ih' =>
    intro r' hr
    obtain ⟨vs, hvs, hms, rfl⟩ := ih _ rfl
    obtain ⟨held, ws, hws, hms', rfl⟩ := ih' r' hr
    refine ⟨held, vs ++ ws, .round ht hvs hu hws, ?_, ?_⟩
    · rw [stepsBegun_append, ← hms, ← hms', List.map_append]
    · rw [RunReport.after_append]
  | refused =>
    rintro r' ⟨⟩
    exact ⟨_, [], .refused, rfl, rfl⟩
  | unread hp =>
    intro r' hr
    obtain ⟨he, rfl⟩ := settle_failed hr
    exact ⟨_, [], .unread hp he, rfl, rfl⟩
  | loaded hp hran ih =>
    intro r' hr
    obtain ⟨vs, hvs, hms, rfl⟩ := ih r' (ok_of_settle hran (fun _ => id) hr)
    exact ⟨.done, vs, .loaded hp hvs, hms, rfl⟩
  | leaf hs hgo _ =>
    intro r' hr
    obtain ⟨v, hv, rfl⟩ := carriedOut_of_act hs hgo hr
    exact ⟨v, [], hv, rfl, rfl⟩
  | stuck => rintro r' ⟨⟩

/-- What a run of a program comes to, by the marks on its way. -/
structure Tallied (i : Interpreter σ) (p : Program) (s t : Session σ) (ms : List Mark)
    (result : Except Halt RunReport) : Prop where
  /-- No error gets out of a run but the call to stop, unless a step does not end. -/
  stops : ∀ e, result = .error e →
    e = .failed .cancelled ∨ e = .endless ∧ ∃ step, .stuck step ∈ ms
  /-- A report is the tally of one verdict for each step that was begun. -/
  once : ∀ report, result = .ok report → ∃ vs, i.Followed i.maxDepth p.base p.steps s vs t ∧
    vs.map Prod.fst = stepsBegun ms ∧ report = ({} : RunReport).after vs
  consistent : ∀ report, result = .ok report →
    report.failures + report.unknown + report.ceilings ≤ report.executed

/-- Every run of a program keeps its count: no step is counted twice, and no failure goes further
than the step that fails. -/
theorem execute_is_tallied (i : Interpreter σ) (p : Program) (s : Session σ) :
    ∃ ms result t, (i.execute p).go s = (result, t) ∧
      i.Ran 0 i.maxDepth p.base (.steps p.steps) {} s ms result t ∧
      i.Tallied p s t ms result := by
  obtain ⟨ms, result, t, hgo, hran⟩ := i.runs_runIn 0 i.maxDepth p.base p.steps {} s
  have htally := tally_of_ran hran
  refine ⟨ms, result, t, hgo, hran, ?_, htally, ?_⟩
  · rintro e rfl
    rcases stops_of_ran hran rfl with he | rfl
    · exact .inl he
    · exact .inr ⟨rfl, stuck_of_endless hran rfl⟩
  · intro report hr
    obtain ⟨vs, -, -, rfl⟩ := htally report hr
    simpa [RunReport.after] using vs.counts_le_length

end Interpreter
end Progression
