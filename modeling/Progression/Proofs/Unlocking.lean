import Progression.Proofs.Giving
import Progression.Proofs.Interaction.Outcome
import Progression.Unlocking

/-!
The protocol of an unlock. Its four stages are one and the same act (`carryOut`) with four guards
and four pieces of work, so an unlock is a walk through a list of stages (`carryOutAll`). What one
stage adds to the history is put together along that walk: `Passes` and `Ended` hold of one stage,
and of a sequence when they hold of its parts.
-/

namespace Progression

variable {σ : Type}

/-- The stage that an event begins. -/
def Event.stage? : Event → Option UnlockStage
  | .began stage => some stage
  | _ => none

/-- The stages that entries begin, the first one first. -/
def begun (es : List Entry) : List UnlockStage := es.filterMap (·.event.stage?)

theorem begun_append (es fs : List Entry) : begun (es ++ fs) = begun es ++ begun fs :=
  List.filterMap_append

theorem Event.Within.stage? {C : Command → Prop} {e : Event} (h : e.Within C) :
    e.stage? = none := by
  cases e with
  | began => exact absurd h id
  | asked => rfl
  | did => rfl
  | ended => rfl
  | round => rfl

theorem begun_eq_nil {C : Command → Prop} {es : List Entry} (h : ∀ e ∈ es, e.event.Within C) :
    begun es = [] :=
  List.filterMap_eq_nil_iff.2 fun e he => (h e he).stage?

/-- The silent class of commands: work that gives none. -/
def noCommand (_ : Command) : Prop := False

/-- What a stage is called in an error. -/
inductive UnlockStage.IsCalled : UnlockStage → String → Prop
  | prerequisite : IsCalled .prerequisite "prerequisite dialog"
  | acquire : IsCalled .acquire "acquire unlock objective"
  | deliver : IsCalled .deliver "deliver unlock objective"
  | switch : IsCalled .switch "switch class"

theorem UnlockStage.isCalled_title (stage : UnlockStage) : stage.IsCalled stage.title := by
  cases stage <;> constructor

namespace Host

/-- From a session to another there is one look and nothing else: this is what it was answered, and
so it was in the first of the two. -/
structure Looked (h : Host σ) (q : Query) (x : q.Answer) (s t : Session σ) : Prop where
  sees : h.sees s q = x
  adds : s.Adds t [⟨s.now, .asked q x⟩]
  now : t.now = s.now
  world : t.world = (h.ask q s.now s.world).state

variable {h : Host σ} {q : Query} {x : q.Answer} {s t : Session σ}

theorem looked_of_look (hgo : (h.look q).go s = (.ok x, t)) : h.Looked q x s t := by
  rw [h.go_look] at hgo
  cases hgo
  exact ⟨rfl, .asked s q _, s.now_asked q _, s.world_asked q _⟩

/-- What can be seen is seen behind a look as well if looks change nothing. -/
theorem Looked.steady (hl : h.Looked q x s t) (hs : h.Steady) : h.sees t = h.sees s := by
  funext q'
  unfold Host.sees
  rw [hl.now, hl.world]
  exact hs q q' s.now s.world

end Host

namespace Setup

open Interaction

/-! ### Stages -/

/-- A stage that was started: the session it was started in, what came of its work, and the session
its work left. -/
structure StageRun (σ : Type) where
  stage : UnlockStage
  start : Session σ
  result : Except Halt Unit
  finish : Session σ

section Stages

variable (p : Setup σ) (u : Unlock)

/-- Whom a stage meets, where, and what for. The last stage meets nobody. -/
def meeting : UnlockStage → Option (Interaction × Request)
  | .prerequisite => some (.dialog, {
      actor := u.pickupActor, objective := u.prerequisite, zone := u.zone, place := u.pickupPlace
      timeout := p.timing.interactionTimeout.toNat * 1000 })
  | .acquire => some (.acquire, {
      actor := u.pickupActor, objective := u.objective, zone := u.zone, place := u.pickupPlace
      timeout := p.timing.interactionTimeout.toNat * 1000 })
  | .deliver => some (.deliver, {
      actor := u.turnInActor, objective := u.objective, zone := u.zone, place := u.turnInPlace
      timeout := p.timing.interactionTimeout.toNat * 1000 })
  | .switch => none

/-- A command belongs to a stage: to its meeting, or to the change of class. -/
def Belongs (stage : UnlockStage) (c : Command) : Prop :=
  match p.meeting u stage with
  | some (kind, r) => kind.IsPart r c
  | none => IsChange u.job c

/-- Whether a stage is called for, by what the game answers. -/
def Guard (answer : Oracle Id) : UnlockStage → Prop
  | .prerequisite => u.prerequisite ≠ 0 ∧ (answer (.completed u.prerequisite) : Bool) = false
  | .acquire => (answer (.completed u.objective) : Bool) = false ∧
      (answer (.held u.objective) : Bool) = false
  | .deliver => (answer (.held u.objective) : Bool) = true
  | .switch => (answer (.completed u.objective) : Bool) = true ∧
      (answer .activeJob : Option Job) ≠ some u.job

/-- The looks that say whether a stage is called for. -/
def isCalledFor : UnlockStage → Act σ Bool
  | .prerequisite => do
    if u.prerequisite = 0 then return false
    return !(← p.isCompleted u.prerequisite)
  | .acquire => do
    if ← p.isCompleted u.objective then return false
    return !(← p.isHeld u.objective)
  | .deliver => p.isHeld u.objective
  | .switch => do
    if !(← p.isCompleted u.objective) then return false
    return !(← p.isActive u.job)

theorem isCalledFor_prerequisite : p.isCalledFor u .prerequisite =
    if u.prerequisite = 0 then pure false
    else do return !(← p.isCompleted u.prerequisite) := rfl

/-- The work of a stage; it fails unless it succeeds. -/
def stageWork (stage : UnlockStage) : Act σ Unit :=
  match p.meeting u stage with
  | some (kind, r) => do stage.require u.job (← p.interact kind r)
  | none => do
    if !(← p.switchAndEquip u.job) then
      Act.fail (stage.failure u.job "class change not confirmed")

/-- The rest after the work of a stage. -/
def pause : UnlockStage → Act σ Unit
  | .prerequisite => Act.rest p.timing.settleDelay.toNat
  | .acquire => pure ()
  | .deliver => Act.rest p.timing.settleDelay.toNat
  | .switch => pure ()

/-- A stage, if it is called for. -/
def carryOut (stage : UnlockStage) : Act σ (List UnlockStage) := do
  if !(← p.isCalledFor u stage) then return []
  Act.note (.began stage)
  p.stageWork u stage
  p.pause stage
  return [stage]

/-- Stages one after the other. -/
def carryOutAll : List UnlockStage → Act σ (List UnlockStage)
  | [] => return []
  | stage :: stages => do
    let first ← p.carryOut u stage
    let others ← carryOutAll stages
    return first ++ others

theorem completePrerequisite_eq : p.completePrerequisite u = p.carryOut u .prerequisite := by
  unfold completePrerequisite carryOut isCalledFor stageWork pause meeting request
  by_cases h : u.prerequisite = 0
  · simp [h]
  · simp only [h, if_false, bind_assoc, pure_bind]
    congr 1
    funext done
    cases done <;> simp

theorem acquireUnlock_eq : p.acquireUnlock u = p.carryOut u .acquire := by
  unfold acquireUnlock carryOut isCalledFor stageWork pause meeting request
  simp only [bind_assoc, pure_bind]
  congr 1
  funext done
  cases done
  · simp only [Bool.false_eq_true, if_false, bind_assoc, pure_bind]
    congr 1
    funext held
    cases held <;> simp
  · simp

theorem deliverUnlock_eq : p.deliverUnlock u = p.carryOut u .deliver := by
  unfold deliverUnlock carryOut isCalledFor stageWork pause meeting request
  congr 1
  funext held
  cases held <;> simp

theorem activateUnlocked_eq : p.activateUnlocked u = p.carryOut u .switch := by
  unfold activateUnlocked carryOut isCalledFor stageWork pause meeting
  simp only [bind_assoc, pure_bind]
  congr 1
  funext done
  cases done
  · simp
  · simp only [Bool.not_true, Bool.false_eq_true, if_false, bind_assoc, pure_bind]
    congr 1
    funext active
    cases active
    · simp only [Bool.not_false, Bool.not_true, Bool.false_eq_true, if_false]
      congr 1
      funext _
      congr 1
      funext switched
      cases switched <;> rfl
    · simp

/-- What an unlock looks at in the end: the level of the class, and whether the objective is
completed if that level is zero. -/
def verify (stages : List UnlockStage) : Act σ UnlockReport := do
  let level ← p.level u.job
  if level = 0 then
    if !(← p.isCompleted u.objective) then
      Act.fail (.unlockStep u.job.title "verify" "class still locked")
  return { job := u.job, stages, level }

theorem unlock_eq : p.unlock u = p.carryOutAll u UnlockStage.all >>= p.verify u := by
  unfold unlock verify UnlockStage.all
  simp only [completePrerequisite_eq, acquireUnlock_eq, deliverUnlock_eq, activateUnlocked_eq,
    carryOutAll, bind_assoc, pure_bind, List.append_nil, List.append_assoc]

end Stages

/-! ### What a stage may say -/

section Looks

variable (p : Setup σ) (u : Unlock)

/-- The looks that call for a stage, from a session to another, and what each of them was answered.
Where there are two, the second comes right after the first, at the same time. -/
inductive CalledFor : UnlockStage → Session σ → Session σ → Prop
  | prerequisite {s t : Session σ} : u.prerequisite ≠ 0 →
    p.host.Looked (.completed u.prerequisite) false s t → CalledFor .prerequisite s t
  | acquire {s t v : Session σ} : p.host.Looked (.completed u.objective) false s t →
    p.host.Looked (.held u.objective) false t v → CalledFor .acquire s v
  | deliver {s t : Session σ} : p.host.Looked (.held u.objective) true s t → CalledFor .deliver s t
  | switch {s t v : Session σ} {active : Option Job} :
    p.host.Looked (.completed u.objective) true s t → p.host.Looked .activeJob active t v →
    active ≠ some u.job → CalledFor .switch s v

/-- The last things done were the looks that call for a stage. Where looks change nothing that can
be seen, it is called for by what can be seen now. -/
def GuardSeen (stage : UnlockStage) (t : Session σ) : Prop :=
  ∃ s, p.CalledFor u stage s t ∧ (p.host.Steady → Guard u (p.host.sees t) stage)

theorem gives_isCalledFor {C : Command → Prop} (stage : UnlockStage) :
    (p.isCalledFor u stage).Gives C := by
  cases stage with
  | prerequisite =>
    rw [isCalledFor_prerequisite]
    split
    · exact Act.gives_pure false
    · exact (p.host.gives_look _).bind fun _ => Act.gives_pure _
  | acquire =>
    refine (p.host.gives_look _).bind ?_
    intro done
    cases done with
    | true => exact Act.gives_pure false
    | false => exact (p.host.gives_look _).bind fun _ => Act.gives_pure _
  | deliver => exact p.host.gives_look _
  | switch =>
    refine (p.host.gives_look _).bind ?_
    intro done
    cases done with
    | true => exact (p.gives_isActive _).bind fun _ => Act.gives_pure _
    | false => exact Act.gives_pure false

theorem calledFor_of_isCalledFor {stage : UnlockStage} {s t : Session σ}
    (h : (p.isCalledFor u stage).go s = (.ok true, t)) : p.CalledFor u stage s t := by
  cases stage with
  | prerequisite =>
    rw [isCalledFor_prerequisite] at h
    split at h
    · cases h
    · next hne =>
      obtain ⟨done, t', ht, h⟩ := Act.go_bind_eq_ok.1 h
      cases done with
      | true => cases h
      | false => cases h; exact .prerequisite hne (Host.looked_of_look ht)
  | acquire =>
    obtain ⟨done, t', ht, h⟩ := Act.go_bind_eq_ok.1 h
    cases done with
    | true => cases h
    | false =>
      obtain ⟨held, t'', ht', h⟩ := Act.go_bind_eq_ok.1 h
      cases held with
      | true => cases h
      | false => cases h; exact .acquire (Host.looked_of_look ht) (Host.looked_of_look ht')
  | deliver => exact .deliver (Host.looked_of_look h)
  | switch =>
    obtain ⟨done, t', ht, h⟩ := Act.go_bind_eq_ok.1 h
    cases done with
    | false => cases h
    | true =>
      obtain ⟨active, t'', ht', h⟩ := Act.go_bind_eq_ok.1 h
      obtain ⟨job, v, hv, hj⟩ := Act.go_bind_eq_ok.1 ht'
      cases active with
      | true => cases h
      | false =>
        cases h
        rw [Act.go_pure] at hj
        obtain ⟨hb, rfl⟩ := Prod.mk.inj hj
        exact .switch (Host.looked_of_look ht) (Host.looked_of_look hv)
          (ne_of_beq_false (Except.ok.inj hb))

variable {p u} in
theorem CalledFor.guard {stage : UnlockStage} {s t : Session σ} (h : p.CalledFor u stage s t)
    (hs : p.host.Steady) : Guard u (p.host.sees t) stage := by
  cases h with
  | prerequisite hne hl => exact ⟨hne, by rw [hl.steady hs, hl.sees]⟩
  | acquire hl hl' =>
    exact ⟨by rw [hl'.steady hs, hl.steady hs, hl.sees], by rw [hl'.steady hs, hl'.sees]⟩
  | deliver hl =>
    show (p.host.sees t (.held u.objective) : Bool) = true
    rw [hl.steady hs, hl.sees]
  | switch hl hl' hne =>
    exact ⟨by rw [hl'.steady hs, hl.steady hs, hl.sees], by rwa [hl'.steady hs, hl'.sees]⟩

theorem guardSeen_of_go {stage : UnlockStage} {s t : Session σ}
    (h : (p.isCalledFor u stage).go s = (.ok true, t)) : p.GuardSeen u stage t :=
  ⟨s, p.calledFor_of_isCalledFor u h, (p.calledFor_of_isCalledFor u h).guard⟩

/-! ### What comes of a stage -/

/-- What the end of a meeting makes of the stage it was for. -/
def settled (stage : UnlockStage) : Except Halt Outcome → Except Halt Unit
  | .ok .succeeded => .ok ()
  | .ok .cancelled => .error (.failed .cancelled)
  | .ok .timedOut =>
    .error (.failed (.unlockStep u.job.title stage.title "interaction timed out"))
  | .ok .navigationFailed =>
    .error (.failed (.unlockStep u.job.title stage.title "navigation failed"))
  | .error e => .error e

/-- What the end of a change of class makes of the last stage. -/
def settledSwitch : Except Halt Bool → Except Halt Unit
  | .ok true => .ok ()
  | .ok false =>
    .error (.failed (.unlockStep u.job.title "switch class" "class change not confirmed"))
  | .error e => .error e

/-- The work of a stage, from a session to another, and what comes of it. -/
inductive Performs : UnlockStage → Session σ → Except Halt Unit → Session σ → Prop
  | meets {stage : UnlockStage} {kind : Interaction} {r : Request} {s t : Session σ}
      {outcome : Except Halt Outcome} : p.meeting u stage = some (kind, r) →
    (p.interact kind r).go s = (outcome, t) → Performs stage s (settled u stage outcome) t
  | switches {s t : Session σ} {switched : Except Halt Bool} :
    (p.switchAndEquip u.job).go s = (switched, t) → Performs .switch s (settledSwitch u switched) t

theorem performs_of_stageWork (stage : UnlockStage) (s : Session σ) :
    p.Performs u stage s ((p.stageWork u stage).go s).1 ((p.stageWork u stage).go s).2 := by
  have hmeets {kind : Interaction} {r : Request} (hm : p.meeting u stage = some (kind, r)) :
      p.Performs u stage s ((p.stageWork u stage).go s).1 ((p.stageWork u stage).go s).2 := by
    have hgo : (p.stageWork u stage).go s = (settled u stage ((p.interact kind r).go s).1,
        ((p.interact kind r).go s).2) := by
      unfold stageWork
      rw [hm]
      dsimp only
      rw [Act.go_bind]
      rcases (p.interact kind r).go s with ⟨e | outcome, t⟩
      · rfl
      · cases outcome <;> rfl
    rw [hgo]
    exact .meets hm rfl
  cases stage with
  | prerequisite => exact hmeets rfl
  | acquire => exact hmeets rfl
  | deliver => exact hmeets rfl
  | switch =>
    have hgo : (p.stageWork u .switch).go s = (settledSwitch u ((p.switchAndEquip u.job).go s).1,
        ((p.switchAndEquip u.job).go s).2) := by
      unfold stageWork meeting
      dsimp only
      rw [Act.go_bind]
      rcases (p.switchAndEquip u.job).go s with ⟨e | switched, t⟩
      · rfl
      · cases switched <;> rfl
    rw [hgo]
    exact .switches rfl

/-- The work of a stage gives commands that belong to it. -/
theorem adds_of_stageWork (stage : UnlockStage) (s : Session σ) :
    ∃ es, s.Adds ((p.stageWork u stage).go s).2 es ∧
      ∀ e ∈ es, e.event.Within (p.Belongs u stage) := by
  unfold stageWork Belongs
  cases p.meeting u stage with
  | some m =>
    obtain ⟨kind, r⟩ := m
    obtain ⟨es, ha, hes⟩ := (p.gives_interact kind r s).adds
    refine ⟨es, ?_, hes⟩
    rw [Act.go_bind]
    rcases hr : (p.interact kind r).go s with ⟨e | outcome, t⟩
    · rwa [hr] at ha
    · rw [hr] at ha
      cases outcome <;> exact ha
  | none =>
    obtain ⟨es, ha, hes⟩ := (p.gives_switchAndEquip u.job s).adds
    refine ⟨es, ?_, hes⟩
    rw [Act.go_bind]
    rcases hr : (p.switchAndEquip u.job).go s with ⟨e | switched, t⟩
    · rwa [hr] at ha
    · rw [hr] at ha
      cases switched <;> exact ha

variable {p u} in
/-- How the work of a stage stops: it is called off, its rounds are used up, or it fails with an
error that names the stage. -/
theorem Performs.halt {stage : UnlockStage} {s t : Session σ} {result : Except Halt Unit} {e : Halt}
    (h : p.Performs u stage s result t) (he : result = .error e) :
    e.IsQuit ∨ ∃ name reason, stage.IsCalled name ∧
      e = .failed (.unlockStep u.job.title name reason) := by
  cases h with
  | @meets _ kind r _ _ outcome _ hgo =>
    have hq := (p.gives_interact kind r s).halts
    rw [hgo] at hq
    rcases outcome with e' | outcome
    · cases he
      exact .inl (hq _ rfl)
    · cases outcome <;> cases he
      · exact .inr ⟨_, _, stage.isCalled_title, rfl⟩
      · exact .inr ⟨_, _, stage.isCalled_title, rfl⟩
      · exact .inl (.inl rfl)
  | @switches _ _ switched hgo =>
    have hq := (p.gives_switchAndEquip u.job s).halts
    rw [hgo] at hq
    rcases switched with e' | switched
    · cases he
      exact .inl (hq _ rfl)
    · cases switched <;> cases he
      exact .inr ⟨_, _, .switch, rfl⟩

end Looks

/-! ### From a session to another -/

/-- A stage was started when it was called for, and this is what came of it. -/
structure StageRun.Sound (p : Setup σ) (u : Unlock) (run : StageRun σ) : Prop where
  guarded : p.GuardSeen u run.stage run.start
  performs : p.Performs u run.stage (run.start.note (.began run.stage)) run.result run.finish

/-- From a session to another, some of the stages of a list were started. -/
structure Passes (p : Setup σ) (u : Unlock) (stages : List UnlockStage) (s : Session σ)
    (runs : List (StageRun σ)) (es : List Entry) (t : Session σ) : Prop where
  adds : s.Adds t es
  sound : ∀ run ∈ runs, run.Sound p u
  order : (runs.map (·.stage)).Sublist stages
  begins : begun es = runs.map (·.stage)
  starts : ∀ run ∈ runs, ∃ before after,
    es = before ++ ⟨run.start.now, .began run.stage⟩ :: after ∧ s.Adds run.start before
  belongs : ∀ before e after c, es = before ++ e :: after → e.event.command? = some c →
    ∃ stage, (begun before).getLast? = some stage ∧ p.Belongs u stage c

/-- How stages end: all succeed; or all succeed and the work is called off in a pause; or the last
one stops, and nothing is done after it. -/
inductive Ended (runs : List (StageRun σ)) (t : Session σ) :
    Except Halt (List UnlockStage) → Prop
  | succeeded : (∀ run ∈ runs, run.result = .ok ()) → Ended runs t (.ok (runs.map (·.stage)))
  | quit {e : Halt} : (∀ run ∈ runs, run.result = .ok ()) → e.IsQuit → Ended runs t (.error e)
  | stopped {before : List (StageRun σ)} {run : StageRun σ} {e : Halt} :
    runs = before ++ [run] → (∀ r ∈ before, r.result = .ok ()) → run.result = .error e →
    t = run.finish → Ended runs t (.error e)

section Passing

variable {p : Setup σ} {u : Unlock}

/-- Looks start nothing. -/
theorem Passes.quiet (stages : List UnlockStage) {s t : Session σ} {es : List Entry}
    (ha : s.Adds t es) (hes : ∀ e ∈ es, e.event.Within noCommand) :
    p.Passes u stages s [] es t where
  adds := ha
  sound := by simp
  order := List.nil_sublist _
  begins := begun_eq_nil hes
  starts := by simp
  belongs before e after c h hc := by
    subst h
    exact absurd ((hes e (by simp)).command hc) id

theorem Passes.trans {stages stages' : List UnlockStage} {s t v : Session σ}
    {runs runs' : List (StageRun σ)} {es es' : List Entry} (h : p.Passes u stages s runs es t)
    (h' : p.Passes u stages' t runs' es' v) :
    p.Passes u (stages ++ stages') s (runs ++ runs') (es ++ es') v where
  adds := h.adds.trans h'.adds
  sound := List.forall_mem_append.2 ⟨h.sound, h'.sound⟩
  order := by
    rw [List.map_append]
    exact h.order.append h'.order
  begins := by rw [begun_append, h.begins, h'.begins, List.map_append]
  starts := by
    refine List.forall_mem_append.2 ⟨?_, ?_⟩
    · intro run hr
      obtain ⟨before, after, rfl, ha⟩ := h.starts run hr
      exact ⟨before, after ++ es', by simp, ha⟩
    · intro run hr
      obtain ⟨before, after, rfl, ha⟩ := h'.starts run hr
      exact ⟨es ++ before, after, by simp, h.adds.trans ha⟩
  belongs before e after c he hc := by
    rcases List.append_eq_append_iff.1 he with ⟨mid, rfl, h''⟩ | ⟨mid, rfl, h''⟩
    · obtain ⟨stage, hs, hb⟩ := h'.belongs mid e after c h'' hc
      exact ⟨stage, by rw [begun_append, List.getLast?_append, hs]; rfl, hb⟩
    · cases mid with
      | nil =>
        obtain ⟨stage, hs, -⟩ := h'.belongs [] e after c h''.symm hc
        cases hs
      | cons x mid =>
        cases h''
        exact h.belongs before e mid c rfl hc

/-- The work of a stage that was called for. -/
theorem Passes.worked {stage : UnlockStage} {s : Session σ} (hg : p.GuardSeen u stage s) :
    ∃ es, p.Passes u [stage] s [⟨stage, s, ((p.stageWork u stage).go (s.note (.began stage))).1,
      ((p.stageWork u stage).go (s.note (.began stage))).2⟩] es
        ((p.stageWork u stage).go (s.note (.began stage))).2 := by
  obtain ⟨es, ha, hes⟩ := p.adds_of_stageWork u stage (s.note (.began stage))
  have hb : begun es = [] := begun_eq_nil hes
  refine ⟨⟨s.now, .began stage⟩ :: es, ⟨ha.cons rfl, ?_, by simp, ?_, ?_, ?_⟩⟩
  · simpa using ⟨hg, p.performs_of_stageWork u stage _⟩
  · show begun ([⟨s.now, .began stage⟩] ++ es) = _
    rw [begun_append, hb]
    rfl
  · simpa using ⟨[], ⟨es, rfl⟩, .refl s⟩
  · intro before e after c he hc
    cases before with
    | nil => cases he; cases hc
    | cons x before =>
      obtain ⟨rfl, rfl⟩ := List.cons.inj he
      have hn : begun before = [] := begun_eq_nil fun e he => hes e (by simp [he])
      refine ⟨stage, ?_, (hes e (by simp)).command hc⟩
      show (begun ([⟨s.now, .began stage⟩] ++ before)).getLast? = _
      rw [begun_append, hn]
      rfl

end Passing

section Runs

variable (p : Setup σ) (u : Unlock)

theorem go_pause (stage : UnlockStage) (s : Session σ) : ∃ result t,
    (p.pause stage).go s = (result, t) ∧ s.Adds t [] ∧ ∀ e, result = .error e → e.IsQuit := by
  have hrest : ∃ result t, (Act.rest p.timing.settleDelay.toNat).go s = (result, t) ∧
      s.Adds t [] ∧ ∀ e, result = .error e → e.IsQuit := by
    refine ⟨_, _, Act.go_rest s _, Session.Adds.refl s, ?_⟩
    intro e he
    split at he <;> cases he
    exact .inl rfl
  have hpure : ∃ result t, (pure () : Act σ Unit).go s = (result, t) ∧ s.Adds t [] ∧
      ∀ e, result = .error e → e.IsQuit := ⟨_, _, rfl, .refl s, fun _ h => by cases h⟩
  cases stage with
  | prerequisite => exact hrest
  | acquire => exact hpure
  | deliver => exact hrest
  | switch => exact hpure

theorem passes_of_carryOut (stage : UnlockStage) (s : Session σ) : ∃ result t runs es,
    (p.carryOut u stage).go s = (result, t) ∧ p.Passes u [stage] s runs es t ∧
      Ended runs t result := by
  unfold carryOut
  obtain ⟨⟨es, ha, hes⟩, hq⟩ := p.gives_isCalledFor (C := noCommand) u stage s
  rcases hr : (p.isCalledFor u stage).go s with ⟨e | called, v⟩ <;> rw [hr] at ha hq
  · exact ⟨_, v, [], es, Act.go_bind_error hr _, .quiet _ ha hes, .quit (by simp) (hq e rfl)⟩
  · rw [Act.go_bind_ok hr]
    cases called with
    | false => exact ⟨_, v, [], es, rfl, .quiet _ ha hes, .succeeded (by simp)⟩
    | true =>
      obtain ⟨es', hw⟩ := Passes.worked (p.guardSeen_of_go u hr)
      have hp := (Passes.quiet (p := p) (u := u) [] ha hes).trans hw
      rcases hr' : (p.stageWork u stage).go (v.note (.began stage)) with ⟨e | x, w⟩
      all_goals
        rw [hr'] at hp
        rw [if_neg (by decide), Act.go_bind_ok (Act.go_note v _)]
      · exact ⟨_, w, _, _, Act.go_bind_error hr' _, hp,
          .stopped (List.nil_append _).symm (by simp) rfl rfl⟩
      · rw [Act.go_bind_ok hr']
        obtain ⟨result, t, ht, ha', hq'⟩ := p.go_pause stage w
        have hp' := hp.trans (Passes.quiet (p := p) (u := u) [] ha' (by simp))
        rcases result with e | _
        · exact ⟨_, t, _, _, Act.go_bind_error ht _, hp', .quit (by simp) (hq' e rfl)⟩
        · exact ⟨_, t, _, _, Act.go_bind_ok ht _, hp', .succeeded (by simp)⟩

theorem passes_of_carryOutAll (stages : List UnlockStage) (s : Session σ) : ∃ result t runs es,
    (p.carryOutAll u stages).go s = (result, t) ∧ p.Passes u stages s runs es t ∧
      Ended runs t result := by
  induction stages generalizing s with
  | nil =>
    exact ⟨_, s, [], [], rfl, .quiet [] (.refl s) (by simp), .succeeded (by simp)⟩
  | cons stage stages ih =>
    obtain ⟨result, v, runs, es, hgo, hp, he⟩ := p.passes_of_carryOut u stage s
    unfold carryOutAll
    cases result with
    | error e =>
      refine ⟨_, v, runs, es, Act.go_bind_error hgo _, ?_, ?_⟩
      · have := hp.trans (Passes.quiet (p := p) (u := u) stages (.refl v) (by simp))
        simpa using this
      · cases he with
        | quit h hq => exact .quit h hq
        | stopped hr hb hs ht => exact .stopped hr hb hs ht
    | ok first =>
      cases he with
      | succeeded hall =>
        obtain ⟨result', t, runs', es', hgo', hp', he'⟩ := ih v
        rw [Act.go_bind_ok hgo]
        cases he' with
        | succeeded hall' =>
          refine ⟨_, t, _, _, Act.go_bind_ok hgo' _, hp.trans hp', ?_⟩
          rw [← List.map_append]
          exact .succeeded (List.forall_mem_append.2 ⟨hall, hall'⟩)
        | quit hall' hq =>
          exact ⟨_, t, _, _, Act.go_bind_error hgo' _, hp.trans hp',
            .quit (List.forall_mem_append.2 ⟨hall, hall'⟩) hq⟩
        | stopped hr hb hs ht =>
          exact ⟨_, t, _, _, Act.go_bind_error hgo' _, hp.trans hp',
            .stopped (by rw [hr, List.append_assoc]) (List.forall_mem_append.2 ⟨hall, hb⟩) hs ht⟩

/-! ### The protocol -/

/-- The last things done were looks that say that a class is unlocked: it has a level that is not
zero, or it has none and the objective is completed. Where looks change nothing that can be seen,
one of the two can be seen still. -/
def UnlockSeen (level : UInt32) (t : Session σ) : Prop :=
  (0 < level ∧ (∃ s, p.host.Looked (.level u.job) level s t) ∨
    level = 0 ∧ ∃ s v, p.host.Looked (.level u.job) level s v ∧
      p.host.Looked (.completed u.objective) true v t) ∧
  (p.host.Steady → 0 < level ∧ p.host.sees t (.level u.job) = level ∨
    (p.host.sees t (.completed u.objective) : Bool) = true)

/-- What an unlock comes to, in view of the stages it started. -/
structure Concludes (runs : List (StageRun σ)) (result : Except Halt UnlockReport)
    (t : Session σ) : Prop where
  /-- A stage that does not succeed is the last thing done, and the unlock stops as it did. -/
  fails : ∀ run ∈ runs, ∀ e, run.result = .error e →
    runs.getLast? = some run ∧ result = .error e ∧ t = run.finish ∧
      (e.IsQuit ∨ ∃ name reason, run.stage.IsCalled name ∧
        e = .failed (.unlockStep u.job.title name reason))
  /-- A report is made of an unlocked class, and lists the stages that were started. -/
  returns : ∀ report, result = .ok report → report.job = u.job ∧
    report.stages = runs.map (·.stage) ∧ (∀ run ∈ runs, run.result = .ok ()) ∧
    p.UnlockSeen u report.level t

variable {p u} in
theorem Concludes.of_error {runs : List (StageRun σ)} {s t : Session σ} {es : List Entry}
    {e : Halt} (hp : p.Passes u UnlockStage.all s runs es t) (he : Ended runs t (.error e)) :
    p.Concludes u runs (.error e) t where
  fails := by
    cases he with
    | quit hall _ =>
      intro run hr e' h
      rw [hall run hr] at h
      cases h
    | stopped hr hb hs ht =>
      intro run hm e' h
      rw [hr, List.mem_append, List.mem_singleton] at hm
      rcases hm with hm | rfl
      · rw [hb run hm] at h
        cases h
      · rw [hs] at h
        cases h
        exact ⟨by rw [hr, List.getLast?_concat], rfl, ht,
          (hp.sound run (by simp [hr])).performs.halt hs⟩
  returns := by
    intro report h
    cases h

variable {p u} in
theorem Concludes.of_ok {runs : List (StageRun σ)} {t : Session σ}
    {result : Except Halt UnlockReport} (hall : ∀ run ∈ runs, run.result = .ok ())
    (hr : ∀ report, result = .ok report →
      report.job = u.job ∧ report.stages = runs.map (·.stage) ∧
        p.UnlockSeen u report.level t) :
    p.Concludes u runs result t where
  fails := by
    intro run hm e h
    rw [hall run hm] at h
    cases h
  returns report h := ⟨(hr report h).1, (hr report h).2.1, hall, (hr report h).2.2⟩

theorem unlockSeen_of_level {s t : Session σ} {level : UInt32}
    (h : (p.level u.job).go s = (.ok level, t)) (hl : level ≠ 0) : p.UnlockSeen u level t := by
  have hpos : 0 < level := by
    rw [UInt32.lt_iff_toNat_lt]
    exact Nat.pos_of_ne_zero fun h0 => hl (UInt32.toNat_inj.1 h0)
  have hlook := Host.looked_of_look h
  exact ⟨.inl ⟨hpos, s, hlook⟩, fun hs => .inl ⟨hpos, by rw [hlook.steady hs, hlook.sees]⟩⟩

theorem unlockSeen_of_completed {s v t : Session σ} (h : (p.level u.job).go s = (.ok 0, v))
    (h' : (p.isCompleted u.objective).go v = (.ok true, t)) : p.UnlockSeen u 0 t := by
  have hlook := Host.looked_of_look h'
  exact ⟨.inr ⟨rfl, s, v, Host.looked_of_look h, hlook⟩,
    fun hs => .inr (by rw [hlook.steady hs, hlook.sees])⟩

/-- The looks in the end. -/
theorem go_verify (stages : List UnlockStage) (s : Session σ) : ∃ result t es,
    (p.verify u stages).go s = (result, t) ∧ s.Adds t es ∧
      (∀ e ∈ es, e.event.Within noCommand) ∧ ∀ report, result = .ok report →
        report.job = u.job ∧ report.stages = stages ∧ p.UnlockSeen u report.level t := by
  obtain ⟨⟨es, ha, hes⟩, -⟩ := p.host.gives_look (C := noCommand) (.level u.job) s
  unfold verify
  rcases hl : (p.level u.job).go s with ⟨e | level, v⟩
  · cases hl
  rw [Act.go_bind_ok hl]
  rw [show (p.host.look (.level u.job)).go s = (.ok level, v) from hl] at ha
  by_cases h0 : level = 0
  · obtain ⟨⟨es', ha', hes'⟩, -⟩ :=
      p.host.gives_look (C := noCommand) (.completed u.objective) v
    have hall := List.forall_mem_append.2 ⟨hes, hes'⟩
    rw [if_pos h0]
    rcases hd : (p.isCompleted u.objective).go v with ⟨e | done, w⟩
    · cases hd
    rw [show (p.host.look (.completed u.objective)).go v = (.ok done, w) from hd] at ha'
    rw [Act.go_bind_ok hd]
    cases done with
    | false => exact ⟨_, w, es ++ es', rfl, ha.trans ha', hall, fun _ h => by cases h⟩
    | true =>
      refine ⟨_, w, es ++ es', rfl, ha.trans ha', hall, ?_⟩
      intro report h
      cases h
      subst h0
      exact ⟨rfl, rfl, p.unlockSeen_of_completed u hl hd⟩
  · rw [if_neg h0]
    refine ⟨_, v, es, rfl, ha, hes, ?_⟩
    intro report h
    cases h
    exact ⟨rfl, rfl, p.unlockSeen_of_level u hl h0⟩

/-- The protocol of an unlock: some of its stages, each once and in this order, and each begun when
its looks call for it. -/
theorem unlock_follows_stages (s : Session σ) : ∃ result t runs es,
    (p.unlock u).go s = (result, t) ∧
      p.Passes u [.prerequisite, .acquire, .deliver, .switch] s runs es t ∧
      (runs.map (·.stage)).Nodup ∧ p.Concludes u runs result t := by
  obtain ⟨result, v, runs, es, hgo, hp, he⟩ := p.passes_of_carryOutAll u UnlockStage.all s
  have hn : (runs.map (·.stage)).Nodup := hp.order.nodup (by decide)
  rw [unlock_eq]
  cases result with
  | error e => exact ⟨_, v, runs, es, Act.go_bind_error hgo _, hp, hn, .of_error hp he⟩
  | ok stages =>
    cases he with
    | succeeded hall =>
      obtain ⟨result, t, es', hgo', ha, hes, hr⟩ := p.go_verify u (runs.map (·.stage)) v
      have hpasses := hp.trans (Passes.quiet [] ha hes)
      rw [List.append_nil, List.append_nil] at hpasses
      exact ⟨result, t, runs, es ++ es', by rw [Act.go_bind_ok hgo, hgo'], hpasses, hn,
        .of_ok hall hr⟩

end Runs

end Setup
end Progression
