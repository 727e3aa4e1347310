import Progression.Leveling
import Progression.Program.Interpreter
import Progression.Proofs.Heeding

/-!
Everything the core does heeds a call to stop with `0 1`: called off before it starts it gives no
command, called off on the way it gives at most one more, and no time passes after the call. The
parts that give commands without looking at the signal, the answer to a window and the round of a
change of class, are counted; all else follows by sequencing.
-/

namespace Progression

variable {σ α β : Type}

namespace Setup

open Interaction

variable (p : Setup σ)

theorem heeds_isReached (kind : Interaction) (id : ObjectiveId) :
    (kind.isReached p.host.look id).Heeds 0 0 := by
  cases kind <;> exact p.host.heeds_look _

theorem heeds_firstOpen? (ws : List Window) : (p.firstOpen? ws).Heeds 0 0 := by
  induction ws with
  | nil => exact Act.heeds_pure _
  | cons w ws ih =>
    refine (p.host.heeds_look _).quiet_bind ?_ (Nat.le_refl _)
    intro isOpen
    split
    · exact Act.heeds_pure _
    · exact ih

theorem heeds_converse (kind : Interaction) (r : Request) (stage : Stage) :
    (p.converse kind r stage).Heeds 1 1 := by
  have hi (c : Command) (x : Progress) : (p.host.issue c >>= fun _ => pure x).Heeds 1 1 :=
    fun s => ((p.host.heeds_issue c s).bind fun _ t _ => Act.heeds_pure x t).mono
      (by omega) (by omega)
  have hp (x : Progress) : (pure x : Act σ Progress).Heeds 1 1 :=
    (Act.heeds_pure x).mono (by omega) (by omega)
  refine (p.heeds_firstOpen? kind.windows).quiet_bind ?_ (Nat.le_refl _)
  intro window
  split
  · exact hi _ _
  · split
    · exact hp _
    · split
      · exact hp _
      · exact hi _ _
    · exact hi _ _

theorem heeds_work (kind : Interaction) (r : Request) (stage : Stage) :
    (p.work kind r stage).Heeds 1 1 := by
  have hp (x : Progress) : (pure x : Act σ Progress).Heeds 0 0 := Act.heeds_pure x
  cases stage with
  | start =>
    refine Act.Heeds.mono (j := 0) (k := 0) ?_ (by omega) (by omega)
    refine (p.host.heeds_attempt? _).quiet_bind ?_ (Nat.le_refl _)
    intro arrived
    split <;> exact hp _
  | walking =>
    refine Act.Heeds.mono (j := 0) (k := 0) ?_ (by omega) (by omega)
    refine (p.host.heeds_look _).quiet_bind ?_ (Nat.le_refl _)
    intro found
    split
    · exact hp _
    · exact hp _
    · refine (p.host.heeds_attempt? _).quiet_bind ?_ (Nat.le_refl _)
      intro near
      split <;> exact hp _
  | facing => exact p.heeds_converse kind r .facing
  | waiting => exact p.heeds_converse kind r .waiting
  | answering => exact p.heeds_converse kind r .answering

/-- A round looks at the signal before it does one piece of work, so a call to stop lets at most
that one command pass. -/
theorem heeds_round (kind : Interaction) (r : Request) (deadline : Option Nat) (stage : Stage) :
    (p.round kind r deadline stage).Heeds 0 1 := by
  have hp (x : Progress) : (pure x : Act σ Progress).Heeds 1 1 :=
    (Act.heeds_pure x).mono (by omega) (by omega)
  refine Act.Heeds.unless_cancelled (j := 1) _ ?_
  refine (p.heeds_isReached kind r.objective).quiet_bind ?_ (Nat.le_refl _)
  intro reached
  split
  · exact hp _
  · refine Act.heeds_now.quiet_bind ?_ (Nat.le_refl _)
    intro now
    split
    · refine (p.heeds_isReached kind r.objective).quiet_bind ?_ (Nat.le_refl _)
      intro late
      split <;> exact hp _
    · exact p.heeds_work kind r stage

theorem heeds_interactFrom (kind : Interaction) (r : Request) (deadline : Option Nat)
    (rounds : Nat) (stage : Stage) : (p.interactFrom kind r deadline rounds stage).Heeds 0 1 := by
  induction rounds generalizing stage with
  | zero =>
    rw [interactFrom]
    refine (p.heeds_round kind r deadline stage).bind ?_
    intro progress
    split
    · exact (Act.heeds_pure _).prompt
    · refine Act.Heeds.unless_called_off (j := 0) fun s hs => ?_
      exact (Act.heedsFrom_endless hs).mono (by omega) (by omega)
  | succ rounds ih =>
    rw [interactFrom]
    refine (p.heeds_round kind r deadline stage).bind ?_
    intro progress
    split
    · exact (Act.heeds_pure _).prompt
    · exact Act.Heeds.unless_called_off fun s _ => ih _ s

theorem heeds_interact (kind : Interaction) (r : Request) : (p.interact kind r).Heeds 0 1 :=
  Act.heeds_now.quiet_bind (fun _ => p.heeds_interactFrom kind r _ _ _) (by omega)

/-! ### Changes of class -/

theorem heeds_isActive (job : Job) : (p.isActive job).Heeds 0 0 :=
  (p.host.heeds_look _).quiet_bind (fun _ => Act.heeds_pure _) (Nat.le_refl _)

theorem heeds_confirm : p.confirm.Heeds 1 1 := by
  refine (p.host.heeds_look _).quiet_bind ?_ (Nat.le_refl _)
  intro asks
  split
  · exact (p.host.heeds_issue _).mono (Nat.le_refl _) (by omega)
  · exact (Act.heeds_pure _).mono (by omega) (by omega)

theorem heeds_awaitRound (job : Job) (deadline : Option Nat) :
    (p.awaitRound job deadline).Heeds 1 1 := by
  refine (p.heeds_isActive job).quiet_bind ?_ (Nat.le_refl _)
  intro active
  split
  · exact (Act.heeds_pure _).mono (by omega) (by omega)
  · refine fun s => ((p.heeds_confirm s).bind (v := 0) (w := 0) fun _ t _ => ?_).mono (by omega)
      (by omega)
    refine Act.heeds_now.quiet_bind (fun now => ?_) (Nat.le_refl _) t
    split <;> exact Act.heeds_pure _

/-- A round that sees the class active gives no command. -/
theorem heeds_of_awaitRound {job : Job} {deadline : Option Nat} {s t : Session σ}
    (h : (p.awaitRound job deadline).go s = (.ok (some true), t)) : s.Heeds 0 0 t := by
  obtain ⟨active, u, hu, h⟩ := Act.go_bind_eq_ok.1 h
  have hq := (p.heeds_isActive job s).session
  rw [hu] at hq
  split at h
  · cases h; exact hq
  · obtain ⟨-, v, -, h⟩ := Act.go_bind_eq_ok.1 h
    obtain ⟨now, w, -, h⟩ := Act.go_bind_eq_ok.1 h
    split at h <;> cases h

theorem heeds_awaitJob (job : Job) (deadline : Option Nat) (rounds : Nat) :
    (p.awaitJob job deadline rounds).Heeds 1 1 := by
  have round {settle : Option Bool → Act σ Bool} {next : Act σ Bool}
      (hs : ∀ active, settle (some active) = pure active)
      (hn : settle none = Act.rest p.timing.tick.toNat >>= fun _ => next)
      (h : ∀ s, s.isCancelled = false → next.HeedsFrom 1 1 s) :
      (p.awaitRound job deadline >>= settle).Heeds 1 1 := by
    refine fun s => ((p.heeds_awaitRound job deadline s).bind (v := 0) (w := 1)
      fun settled t _ => ?_).mono (by omega) (by omega)
    cases settled with
    | some active => rw [hs]; exact (Act.heeds_pure active).prompt t
    | none => rw [hn]; exact Act.Heeds.after_rest h t
  induction rounds with
  | zero =>
    rw [awaitJob]
    exact round (fun _ => rfl) rfl fun s hs =>
      (Act.heedsFrom_endless hs).mono (by omega) (by omega)
  | succ rounds ih =>
    rw [awaitJob]
    exact round (fun _ => rfl) rfl fun s _ => ih s

/-- A class that is found active was found so at the start or after a wait, with no command
since. -/
theorem heeds_of_awaitJob {job : Job} {deadline : Option Nat} {rounds : Nat} {s t : Session σ}
    (h : (p.awaitJob job deadline rounds).go s = (.ok true, t)) : s.Heeds 0 0 t := by
  induction rounds generalizing s with
  | zero =>
    rw [awaitJob, Act.go_bind_eq_ok] at h
    obtain ⟨settled, u, hu, h⟩ := h
    cases settled with
    | some active => cases h; exact p.heeds_of_awaitRound hu
    | none =>
      obtain ⟨-, v, -, h⟩ := Act.go_bind_eq_ok.1 h
      cases h
  | succ rounds ih =>
    rw [awaitJob, Act.go_bind_eq_ok] at h
    obtain ⟨settled, u, hu, h⟩ := h
    cases settled with
    | some active => cases h; exact p.heeds_of_awaitRound hu
    | none =>
      obtain ⟨_, v, hv, h⟩ := Act.go_bind_eq_ok.1 h
      have hs := (p.heeds_awaitRound job deadline s).session
      have hw := (Act.heeds_rest p.timing.tick.toNat u).session
      rw [hu] at hs
      rw [hv] at hw
      exact (hs.trans hw).of_trans (Act.isCancelled_of_rest hv) (ih h)

theorem heeds_changeJob (job : Job) : (p.changeJob job).Heeds 0 1 := by
  refine (p.heeds_isActive job).quiet_bind ?_ (by omega)
  intro active
  split
  · exact (Act.heeds_pure _).prompt
  · refine Act.Heeds.after_check (j := 2) fun s _ => ?_
    refine ((p.host.heeds_issue _ s).bind (v := 1) (w := 1) fun _ t _ => ?_).mono (by omega)
      (by omega)
    exact Act.heeds_now.quiet_bind (fun now => p.heeds_awaitJob job _ _) (Nat.le_refl _) t

/-- A change that is confirmed was called off after its last command, if at all. -/
theorem heeds_of_changeJob {job : Job} {s t : Session σ}
    (h : (p.changeJob job).go s = (.ok true, t)) : s.Heeds 0 0 t := by
  obtain ⟨active, u, hu, h⟩ := Act.go_bind_eq_ok.1 h
  have hq := (p.heeds_isActive job s).session
  rw [hu] at hq
  split at h
  · cases h; exact hq
  · obtain ⟨_, v, hv, h⟩ := Act.go_bind_eq_ok.1 h
    obtain ⟨_, w, hw, h⟩ := Act.go_bind_eq_ok.1 h
    obtain ⟨now, x, hx, h⟩ := Act.go_bind_eq_ok.1 h
    cases hx
    have hc := (Act.heeds_check u).session
    have hi := (p.host.heeds_issue (.changeJob job) v).session
    rw [hv] at hc
    rw [hw] at hi
    exact ((hq.trans hc).of_trans (Act.isCancelled_of_check hv)
      (hi.trans (p.heeds_of_awaitJob h))).mono (by omega) (by omega)

theorem heeds_switchAndEquip (job : Job) : (p.switchAndEquip job).Heeds 0 1 := by
  have equip : (p.host.issue .equip >>= fun _ => Act.rest p.timing.switchDelay.toNat >>= fun _ =>
      (pure true : Act σ Bool)).Heeds 1 1 :=
    fun s => ((p.host.heeds_issue .equip s).bind fun _ t _ => (Act.heeds_rest _).quiet_bind
      (fun _ => Act.heeds_pure true) (Nat.le_refl _) t).mono (by omega) (by omega)
  refine Act.Heeds.after_rest (j := 1) fun s _ => ?_
  have hc := p.heeds_changeJob job s
  rcases hr : (p.changeJob job).go s with ⟨e | changed, t⟩
  · exact (hc.bind_error hr).mono (by omega) (by omega)
  · cases changed with
    | false =>
      have h := hc.session
      rw [hr] at h
      exact Act.HeedsFrom.mono (Act.HeedsFrom.bind_ok hr h (Act.heeds_pure false t)) (by omega)
        (by omega)
    | true =>
      have h := p.heeds_of_changeJob hr
      exact Act.HeedsFrom.mono (Act.HeedsFrom.bind_ok hr h (equip t)) (by omega) (by omega)

/-! ### Unlocks -/

theorem heeds_isCompleted (id : ObjectiveId) : (p.isCompleted id).Heeds 0 0 := p.host.heeds_look _

theorem heeds_isHeld (id : ObjectiveId) : (p.isHeld id).Heeds 0 0 := p.host.heeds_look _

theorem heeds_level (job : Job) : (p.level job).Heeds 0 0 := p.host.heeds_look _

theorem heeds_require (job : Job) (stage : UnlockStage) (outcome : Outcome) :
    (stage.require job outcome : Act σ Unit).Heeds 0 0 := by
  cases outcome with
  | succeeded => exact Act.heeds_pure _
  | cancelled => exact Act.heeds_fail _
  | timedOut => exact Act.heeds_fail _
  | navigationFailed => exact Act.heeds_fail _

variable (u : Unlock)

theorem heeds_completePrerequisite : (p.completePrerequisite u).Heeds 0 1 := by
  unfold completePrerequisite
  split
  · exact (Act.heeds_pure _).prompt
  · refine (p.heeds_isCompleted _).quiet_bind ?_ (by omega)
    intro done
    split
    · exact (Act.heeds_pure _).prompt
    · refine (Act.heeds_note _ rfl).prompt.bind ?_
      intro _
      refine (p.heeds_interact _ _).bind ?_
      intro outcome
      refine (heeds_require _ _ outcome).prompt.bind ?_
      intro _
      exact (Act.heeds_rest _).prompt.bind fun _ => (Act.heeds_pure _).prompt

theorem heeds_acquireUnlock : (p.acquireUnlock u).Heeds 0 1 := by
  refine (p.heeds_isCompleted _).prompt.bind ?_
  intro done
  split
  · exact (Act.heeds_pure _).prompt
  · refine (p.heeds_isHeld _).prompt.bind ?_
    intro held
    split
    · exact (Act.heeds_pure _).prompt
    · refine (Act.heeds_note _ rfl).prompt.bind ?_
      intro _
      refine (p.heeds_interact _ _).bind ?_
      intro outcome
      exact (heeds_require _ _ outcome).prompt.bind fun _ => (Act.heeds_pure _).prompt

theorem heeds_deliverUnlock : (p.deliverUnlock u).Heeds 0 1 := by
  refine (p.heeds_isHeld _).prompt.bind ?_
  intro held
  split
  · exact (Act.heeds_pure _).prompt
  · refine (Act.heeds_note _ rfl).prompt.bind ?_
    intro _
    refine (p.heeds_interact _ _).bind ?_
    intro outcome
    refine (heeds_require _ _ outcome).prompt.bind ?_
    intro _
    exact (Act.heeds_rest _).prompt.bind fun _ => (Act.heeds_pure _).prompt

theorem heeds_activateUnlocked : (p.activateUnlocked u).Heeds 0 1 := by
  refine (p.heeds_isCompleted _).prompt.bind ?_
  intro done
  split
  · exact (Act.heeds_pure _).prompt
  · refine (p.heeds_isActive _).prompt.bind ?_
    intro active
    split
    · exact (Act.heeds_pure _).prompt
    · refine (Act.heeds_note _ rfl).prompt.bind ?_
      intro _
      refine (p.heeds_switchAndEquip _).bind ?_
      intro switched
      split
      · exact (Act.heeds_fail _).prompt.bind fun _ => (Act.heeds_pure _).prompt
      · exact (Act.heeds_pure _).prompt

theorem heeds_unlock : (p.unlock u).Heeds 0 1 := by
  refine (p.heeds_completePrerequisite u).bind ?_
  intro first
  refine (p.heeds_acquireUnlock u).bind ?_
  intro second
  refine (p.heeds_deliverUnlock u).bind ?_
  intro third
  refine (p.heeds_activateUnlocked u).bind ?_
  intro fourth
  refine (p.heeds_level _).prompt.bind ?_
  intro level
  split
  · refine (p.heeds_isCompleted _).prompt.bind ?_
    intro done
    split
    · exact (Act.heeds_fail _).prompt.bind fun _ => (Act.heeds_pure _).prompt
    · exact (Act.heeds_pure _).prompt
  · exact (Act.heeds_pure _).prompt

end Setup

/-! ### Runs -/

namespace Plan

variable (p : Plan σ)

theorem heeds_submit (item : ItemId) (amount : UInt32) (job : Job) :
    (p.submit item amount job).Heeds 0 0 := p.host.heeds_attempt _

theorem heeds_levels (jobs : List Job) : (p.levels jobs).Heeds 0 0 := by
  induction jobs with
  | nil => exact Act.heeds_pure _
  | cons job jobs ih =>
    refine (p.heeds_level job).quiet_bind ?_ (Nat.le_refl _)
    intro n
    exact ih.quiet_bind (fun _ => Act.heeds_pure _) (Nat.le_refl _)

theorem heeds_refreshTargets : p.refreshTargets.Heeds 0 0 := by
  refine (p.heeds_levels Job.all).quiet_bind ?_ (Nat.le_refl _)
  intro levels
  refine Act.Heeds.quiet_bind ?_ (fun _ => Act.heeds_publishLevels _) (Nat.le_refl _)
  exact Act.heeds_modify (fun _ => rfl) (fun _ => rfl) (fun _ => rfl) fun _ => rfl

theorem heeds_procure (job : Job) (o : Objective) : (p.procure job o).Heeds 0 0 := by
  unfold procure
  split
  · exact Act.heeds_pure _
  · refine (p.host.heeds_look _).quiet_bind ?_ (Nat.le_refl _)
    intro n
    split
    · exact Act.heeds_pure _
    · exact p.heeds_submit _ _ _

theorem heeds_acquireObjective (o : Objective) : (p.acquireObjective o).Heeds 0 1 := by
  refine (p.heeds_isHeld _).prompt.bind ?_
  intro held
  split
  · exact (Act.heeds_pure _).prompt
  · refine (p.heeds_interact _ _).bind ?_
    intro outcome
    split
    · exact (Act.heeds_pure _).prompt
    · exact (Act.heeds_fail _).prompt
    · exact (Act.heeds_pure _).prompt

theorem heeds_pursue (job : Job) (o : Objective) : (p.pursue job o).Heeds 0 1 := by
  refine (Act.heeds_publishDirective _ _).prompt.bind ?_
  intro _
  refine (p.heeds_procure job o).prompt.bind ?_
  intro procured
  split
  · exact (Act.heeds_pure _).prompt
  · refine (p.heeds_acquireObjective o).bind ?_
    intro acquired
    split
    · exact (Act.heeds_pure _).prompt
    · refine (p.heeds_interact _ _).bind ?_
      intro outcome
      split
      · exact (Act.heeds_fail _).prompt
      · exact (Act.heeds_pure _).prompt

theorem heeds_grind (job : Job) (g : Grind) : (p.grind job g).Heeds 0 0 :=
  (Act.heeds_publishDirective _ _).quiet_bind (fun _ => p.heeds_submit _ _ _) (Nat.le_refl _)

theorem heeds_isEligible (o : Objective) (level : UInt32) :
    (o.isEligible p.host.look level).Heeds 0 0 := by
  unfold Objective.isEligible
  split
  · exact Act.heeds_pure _
  · refine (p.host.heeds_look _).quiet_bind ?_ (Nat.le_refl _)
    intro completed
    split
    · exact Act.heeds_pure _
    · refine (p.host.heeds_look _).quiet_bind ?_ (Nat.le_refl _)
      intro held
      split
      · exact Act.heeds_pure _
      · split
        · exact Act.heeds_pure _
        · exact p.host.heeds_look _

theorem heeds_firstEligible? (level : UInt32) (os : List Objective) :
    (Objective.firstEligible? p.host.look level os).Heeds 0 0 := by
  induction os with
  | nil => exact Act.heeds_pure _
  | cons o os ih =>
    refine (p.heeds_isEligible o level).quiet_bind ?_ (Nat.le_refl _)
    intro eligible
    split
    · exact Act.heeds_pure _
    · exact ih

theorem heeds_pursueAny (job : Job) (o : Option Objective) : (p.pursueAny job o).Heeds 0 1 := by
  cases o with
  | none => exact (Act.heeds_pure _).prompt
  | some o => exact p.heeds_pursue job o

theorem heeds_grindAny (job : Job) (g : Option Grind) : (p.grindAny job g).Heeds 0 0 := by
  cases g with
  | none => exact Act.heeds_pure _
  | some g =>
    refine (p.heeds_grind job g).quiet_bind ?_ (Nat.le_refl _)
    intro done
    split <;> exact Act.heeds_pure _

theorem heeds_levelRound (job : Job) (before : UInt32) : (p.levelRound job before).Heeds 0 1 := by
  refine (p.heeds_firstEligible? _ _).prompt.bind ?_
  intro objective
  dsimp only
  split
  · exact (Act.heeds_pure _).prompt
  · refine (p.heeds_pursueAny job objective).bind ?_
    intro _
    refine (p.heeds_grindAny job _).prompt.bind ?_
    intro outcome
    split
    · exact (Act.heeds_pure _).prompt
    · refine p.heeds_refreshTargets.prompt.bind ?_
      intro _
      exact (p.heeds_level job).prompt.bind fun _ => (Act.heeds_pure _).prompt

theorem heeds_levelFrom (job : Job) (goal : UInt32) (iterations rounds : Nat) :
    (p.levelFrom job goal iterations rounds).Heeds 0 1 := by
  induction rounds generalizing iterations with
  | zero =>
    exact Act.Heeds.after_check fun s hs => (Act.heedsFrom_endless hs).mono (Nat.le_refl _)
      (by omega)
  | succ rounds ih =>
    rw [levelFrom]
    refine Act.heeds_check.prompt.bind ?_
    intro _
    refine (p.heeds_level job).prompt.bind ?_
    intro before
    split
    · exact (Act.heeds_pure _).prompt
    · refine (Act.heeds_note _ rfl).prompt.bind ?_
      intro _
      refine (p.heeds_levelRound job before).bind ?_
      intro outcome
      split
      · exact (Act.heeds_pure _).prompt
      · exact ih _

theorem heeds_levelClass (phase : Phase) (job : Job) : (p.levelClass phase job).Heeds 0 1 := by
  refine (p.heeds_level job).prompt.bind ?_
  intro start
  dsimp only
  split
  · exact (Act.heeds_pure _).prompt
  · split
    · exact (Act.heeds_pure _).prompt
    · refine (Act.heeds_publishDirective _ _).prompt.bind ?_
      intro _
      refine (p.heeds_switchAndEquip job).bind ?_
      intro switched
      split
      · exact (Act.heeds_pure _).prompt
      · refine (p.heeds_levelFrom job _ _ _).bind ?_
        intro outcome
        exact (p.heeds_level job).prompt.bind fun _ => (Act.heeds_pure _).prompt

/-- The summary is no part of what a call to stop is about. -/
theorem heeds_summarize (f : Session σ → Summary) :
    (modify fun s => { s with summary := f s } : Act σ Unit).Heeds 0 0 :=
  Act.heeds_modify (fun _ => rfl) (fun _ => rfl) (fun _ => rfl) fun _ => rfl

theorem heeds_unlockAll (us : List Unlock) : (p.unlockAll us).Heeds 0 1 := by
  induction us with
  | nil => exact (Act.heeds_pure _).prompt
  | cons u us ih =>
    refine Act.heeds_check.prompt.bind ?_
    intro _
    split
    · refine (p.heeds_level u.job).prompt.bind ?_
      intro level
      split
      · refine (Act.heeds_publishDirective _ _).prompt.bind ?_
        intro _
        refine (p.heeds_unlock u).bind ?_
        intro report
        refine p.heeds_refreshTargets.prompt.bind ?_
        intro _
        exact (heeds_summarize _).prompt.bind fun _ => ih
      · exact ih
    · exact ih

theorem heeds_levelGroup (phase : Phase) (jobs : List Job) :
    (p.levelGroup phase jobs).Heeds 0 1 := by
  induction jobs with
  | nil => exact (Act.heeds_pure _).prompt
  | cons job jobs ih =>
    refine Act.heeds_check.prompt.bind ?_
    intro _
    split
    · refine (p.heeds_levelClass phase job).bind ?_
      intro run
      exact (heeds_summarize _).prompt.bind fun _ => ih
    · exact ih

theorem heeds_runPhase (phase : Phase) : (p.runPhase phase).Heeds 0 1 := by
  cases phase with
  | unlockAll => exact (p.heeds_unlockAll _).bind fun _ => (Act.heeds_pure _).prompt
  | levelGatherers => exact (p.heeds_levelGroup _ _).bind fun _ => (Act.heeds_pure _).prompt
  | levelCrafters => exact (p.heeds_levelGroup _ _).bind fun _ => (Act.heeds_pure _).prompt
  | levelToCap => exact (Act.heeds_pure _).prompt

theorem heeds_runPhases (phases : List Phase) : (p.runPhases phases).Heeds 0 1 := by
  induction phases with
  | nil => exact (Act.heeds_pure _).prompt
  | cons phase phases ih =>
    refine Act.heeds_check.prompt.bind ?_
    intro _
    refine (Act.heeds_publishDirective _ _).prompt.bind ?_
    intro _
    refine (p.heeds_runPhase phase).bind ?_
    intro outcome
    exact (heeds_summarize _).prompt.bind fun _ => ih

theorem heeds_run (id : String) : (p.run id).Heeds 0 1 := by
  have start : (modify fun s => { s with summary := {}, status := s.status.setRun id } :
      Act σ Unit).Heeds 0 0 :=
    Act.heeds_modify (fun _ => rfl) (fun _ => rfl) (fun _ => rfl) fun _ => rfl
  have result : ((return (← get).summary) : Act σ Summary).Heeds 0 0 :=
    fun s => .of_go rfl (.refl s) fun h => by cases h
  refine start.prompt.bind ?_
  intro _
  refine p.heeds_refreshTargets.prompt.bind ?_
  intro _
  refine (p.heeds_runPhases _).bind ?_
  intro _
  refine (heeds_summarize _).prompt.bind ?_
  intro _
  exact (Act.heeds_publishDirective _ _).prompt.bind fun _ => result.prompt

end Plan

/-! ### Programs -/

theorem heeds_holds (h : Host σ) (q : Predicate) : (q.holds h.look).Heeds 0 0 := by
  have looked {β : Type} (q : Query) (f : q.Answer → Act σ β) (hf : ∀ x, (f x).Heeds 0 0) :
      (h.look q >>= f).Heeds 0 0 := (h.heeds_look q).quiet_bind hf (Nat.le_refl _)
  have hp (b : Bool) : (pure b : Act σ Bool).Heeds 0 0 := Act.heeds_pure b
  cases q with
  | isQuestCompleted id => exact h.heeds_look _
  | hasQuest id => exact h.heeds_look _
  | hasItem id => exact looked _ _ fun _ => hp _
  | isQuestAcceptQualified id =>
    refine looked _ _ fun completed => ?_
    split
    · exact hp _
    · exact looked _ _ fun _ => hp _
  | hqHasAtLeast id amount => exact looked _ _ fun _ => hp _
  | nqHasAtLeast id amount => exact looked _ _ fun _ => hp _
  | questStep id op value => exact looked _ _ fun _ => hp _
  | level job op value => exact looked _ _ fun _ => hp _
  | activeLevel op value =>
    refine looked _ _ fun active => ?_
    split
    · exact looked _ _ fun _ => hp _
    · exact hp _
  | activeJob job negated => exact looked _ _ fun _ => hp _

mutual

theorem heeds_eval (h : Host σ) : ∀ c : Condition, (c.eval h.look).Heeds 0 0
  | .any parts => heeds_evalAny h parts
  | .all parts => heeds_evalAll h parts
  | .not part => (heeds_eval h part).quiet_bind (fun _ => Act.heeds_pure _) (Nat.le_refl _)
  | .literal _ => Act.heeds_pure _
  | .atom q => heeds_holds h q
  | .unknown _ => Act.heeds_pure _

theorem heeds_evalAny (h : Host σ) : ∀ cs : List Condition,
    (Condition.evalAny h.look cs).Heeds 0 0
  | [] => Act.heeds_pure _
  | c :: cs => by
    refine (heeds_eval h c).quiet_bind ?_ (Nat.le_refl _)
    intro b
    split
    · exact Act.heeds_pure _
    · exact heeds_evalAny h cs

theorem heeds_evalAll (h : Host σ) : ∀ cs : List Condition,
    (Condition.evalAll h.look cs).Heeds 0 0
  | [] => Act.heeds_pure _
  | c :: cs => by
    refine (heeds_eval h c).quiet_bind ?_ (Nat.le_refl _)
    intro b
    split
    · exact heeds_evalAll h cs
    · exact Act.heeds_pure _

end

namespace Interpreter

variable (i : Interpreter σ)

theorem heeds_evaluate (condition : String) :
    (Condition.evaluate i.host.look condition).Heeds 0 0 := heeds_eval i.host _

theorem heeds_craft (orders : String) : (i.craft orders).Heeds 0 0 := by
  unfold craft
  split
  · exact Act.heeds_fail _
  · refine (Act.heeds_publishDirective _ _).quiet_bind ?_ (Nat.le_refl _)
    intro _
    refine (i.host.heeds_attempt _).quiet_bind ?_ (Nat.le_refl _)
    intro done
    split
    · exact Act.heeds_fail _
    · exact Act.heeds_pure _

theorem heeds_meet (kind : Interaction) (r : Interaction.Request) :
    (i.meet kind r).Heeds 0 1 := by
  refine (i.heeds_interact kind r).bind ?_
  intro outcome
  split
  · exact (Act.heeds_pure _).prompt
  · exact (Act.heeds_fail _).prompt
  · exact (Act.heeds_fail _).prompt
  · exact (Act.heeds_fail _).prompt

theorem heeds_softly {r : RunReport} {act : RunReport → Act σ RunReport}
    (h : ∀ r, (act r).Heeds 0 1) : (softly r act).Heeds 0 1 := by
  refine (h _).tryCatch (fun e => ?_) rfl
  dsimp only
  split
  · exact (Act.heeds_fail _).prompt
  · exact (Act.heeds_pure _).prompt

theorem heeds_repeatWhile {holds : Act σ Bool} {body : RunReport → Act σ RunReport}
    (hh : holds.Heeds 0 0) (hb : ∀ r, (body r).Heeds 0 1) (n : Nat) (r : RunReport) :
    (repeatWhile holds body n r).Heeds 0 1 := by
  induction n generalizing r with
  | zero =>
    refine hh.prompt.bind ?_
    intro b
    split <;> exact (Act.heeds_pure _).prompt
  | succ n ih =>
    refine hh.prompt.bind ?_
    intro b
    split
    · exact (hb r).bind fun r' => Act.heeds_check.prompt.bind fun _ => ih r'
    · exact (Act.heeds_pure _).prompt

variable {load : Loader σ}

mutual

theorem heeds_runStep (hl : ∀ path r, (load path r).Heeds 0 1) :
    ∀ (step : Step) (r : RunReport), (i.runStep load step r).Heeds 0 1
  | .branch condition body, r => by
    refine (i.heeds_evaluate condition).prompt.bind ?_
    intro b
    split
    · exact heeds_runSteps hl body r
    · exact (Act.heeds_pure _).prompt
  | .loop condition body, r =>
    heeds_repeatWhile (i.heeds_evaluate condition) (heeds_runSteps hl body) _ r
  | .block body, r => heeds_runSteps hl body r
  | .load path, r => hl path r
  | .unknown .., _ => (Act.heeds_pure _).prompt
  | .craft orders, _ => (i.heeds_craft orders).prompt.bind fun _ => (Act.heeds_pure _).prompt
  | .goTo zone place, _ => by
    refine (i.host.heeds_attempt _).prompt.bind ?_
    intro arrived
    split
    · exact (Act.heeds_fail _).prompt.bind fun _ => (Act.heeds_pure _).prompt
    · exact (Act.heeds_pure _).prompt
  | .changeJob job, _ => by
    refine (i.heeds_switchAndEquip job).bind ?_
    intro switched
    split
    · exact (Act.heeds_fail _).prompt.bind fun _ => (Act.heeds_pure _).prompt
    · exact (Act.heeds_pure _).prompt
  | .wait _, _ => (Act.heeds_rest _).prompt.bind fun _ => (Act.heeds_pure _).prompt
  | .interact .., _ => (i.heeds_meet _ _).bind fun _ => (Act.heeds_pure _).prompt
  | .log line, _ => (Act.heeds_log line).prompt.bind fun _ => (Act.heeds_pure _).prompt
  | .name _, _ => (Act.heeds_pure _).prompt
  | .invalid .., _ => (Act.heeds_fail _).prompt

theorem heeds_runSteps (hl : ∀ path r, (load path r).Heeds 0 1) :
    ∀ (steps : List Step) (r : RunReport), (i.runSteps load steps r).Heeds 0 1
  | [], _ => (Act.heeds_pure _).prompt
  | step :: steps, _ => Act.heeds_check.prompt.bind fun _ =>
    (heeds_softly fun r => heeds_runStep hl step r).bind fun r => heeds_runSteps hl steps r

end

theorem heeds_runIn (depth : Nat) (base : String) (steps : List Step) (r : RunReport) :
    (i.runIn depth base steps r).Heeds 0 1 := by
  induction depth generalizing base steps r with
  | zero => exact i.heeds_runSteps (fun _ _ => (Act.heeds_fail _).prompt) steps r
  | succ depth ih =>
    refine i.heeds_runSteps (fun path r => ?_) steps r
    split
    · exact (Act.heeds_fail _).prompt
    · exact ih _ _ _

theorem heeds_execute (p : Program) : (i.execute p).Heeds 0 1 := i.heeds_runIn _ _ _ _

end Interpreter

/-- **Calls to stop are heeded** by everything the core does, in every game and whenever the call
comes: before the start no command is given, after a call on the way at most one more, no time
passes any more, and no loop goes on until its rounds are used up. -/
theorem work_heeds_calls_to_stop (σ : Type) :
    (∀ (p : Setup σ) (kind : Interaction) (r : Interaction.Request),
      (p.interact kind r).Heeds 0 1) ∧
    (∀ (p : Setup σ) (job : Job), (p.switchAndEquip job).Heeds 0 1) ∧
    (∀ (p : Setup σ) (u : Unlock), (p.unlock u).Heeds 0 1) ∧
    (∀ (i : Interpreter σ) (program : Program), (i.execute program).Heeds 0 1) ∧
    (∀ (p : Plan σ) (phase : Phase) (job : Job), (p.levelClass phase job).Heeds 0 1) ∧
    ∀ (p : Plan σ) (id : String), (p.run id).Heeds 0 1 :=
  ⟨Setup.heeds_interact, Setup.heeds_switchAndEquip, Setup.heeds_unlock,
    Interpreter.heeds_execute, Plan.heeds_levelClass, Plan.heeds_run⟩

end Progression
