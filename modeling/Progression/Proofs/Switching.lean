import Progression.Proofs.Unlocking

/-!
What a change of class reports. A change that is confirmed was seen to be: its last look found the
class active. A change that is given up has had its time, and its last look at the active class
found another one; only a confirmation that was given in the very last round comes after that look,
and what it did is not looked at any more.
-/

namespace Progression.Setup

variable {σ : Type} (p : Setup σ) (job : Job)

/-! ### Rounds of waiting -/

/-- The last things done were looks: the class is not active, and nothing is to be confirmed. -/
def SeenInactive (t : Session σ) : Prop :=
  ∃ u, (p.isActive job).Leaves false u ∧
    (p.host.look (.isOpen .selectYesNo)).go u = (.ok false, t)

/-- The last thing done was a confirmation, after a look that found the class not active. -/
def ConfirmedLast (t : Session σ) : Prop :=
  ∃ u v, (p.isActive job).Leaves false u ∧
    (p.host.look (.isOpen .selectYesNo)).go u = (.ok true, v) ∧
    (p.host.issue (.choose .selectYesNo 0)).go v = (.ok (), t)

/-- How a round of waiting leaves a session, and whether that settles the change. -/
inductive Awaited (deadline : Option Nat) (t : Session σ) : Option Bool → Prop
  | active : (p.isActive job).Leaves true t → Awaited deadline t (some true)
  | expired : isPast t.now deadline → p.SeenInactive job t ∨ p.ConfirmedLast job t →
    Awaited deadline t (some false)
  | goesOn : Awaited deadline t none

/-- After a look for a confirmation, and the confirmation if it is asked for. -/
theorem seen_of_confirm {u t : Session σ} (hu : (p.isActive job).Leaves false u)
    (h : p.confirm.go u = (.ok (), t)) : p.SeenInactive job t ∨ p.ConfirmedLast job t := by
  obtain ⟨asks, v, hv, h⟩ := Act.go_bind_eq_ok.1 h
  cases asks with
  | false => cases h; exact .inl ⟨u, hu, hv⟩
  | true => exact .inr ⟨u, v, hu, hv, h⟩

theorem awaited_of_awaitRound {deadline : Option Nat} {s t : Session σ} {settled : Option Bool}
    (h : (p.awaitRound job deadline).go s = (.ok settled, t)) :
    p.Awaited job deadline t settled := by
  obtain ⟨active, u, hu, h⟩ := Act.go_bind_eq_ok.1 h
  cases active with
  | true => cases h; exact .active ⟨s, hu⟩
  | false =>
    obtain ⟨_, v, hv, h⟩ := Act.go_bind_eq_ok.1 h
    obtain ⟨now, w, hw, h⟩ := Act.go_bind_eq_ok.1 h
    cases hw
    cases hp : isPast v.now deadline with
    | true =>
      rw [hp] at h
      cases h
      exact .expired hp (p.seen_of_confirm job ⟨s, hu⟩ hv)
    | false =>
      rw [hp] at h
      cases h
      exact .goesOn

/-- Waiting ends with the round that settles the change. -/
theorem awaited_of_awaitJob {deadline : Option Nat} {rounds : Nat} {s t : Session σ} {active : Bool}
    (h : (p.awaitJob job deadline rounds).go s = (.ok active, t)) :
    p.Awaited job deadline t (some active) := by
  induction rounds generalizing s with
  | zero =>
    rw [awaitJob, Act.go_bind_eq_ok] at h
    obtain ⟨settled, u, hu, h⟩ := h
    cases settled with
    | some active => cases h; exact p.awaited_of_awaitRound job hu
    | none =>
      obtain ⟨-, v, -, h⟩ := Act.go_bind_eq_ok.1 h
      cases h
  | succ rounds ih =>
    rw [awaitJob, Act.go_bind_eq_ok] at h
    obtain ⟨settled, u, hu, h⟩ := h
    cases settled with
    | some active => cases h; exact p.awaited_of_awaitRound job hu
    | none =>
      obtain ⟨_, v, -, h⟩ := Act.go_bind_eq_ok.1 h
      exact ih h

/-! ### What can be seen in the end -/

variable {p job} in
theorem sees_of_isActive {t : Session σ} {active : Bool} (hs : p.host.Steady)
    (h : (p.isActive job).Leaves active t) :
    active = true ↔ (p.host.sees t .activeJob : Option Job) = some job := by
  obtain ⟨s, h⟩ := h
  obtain ⟨found, u, hu, h⟩ := Act.go_bind_eq_ok.1 h
  have hlook := Host.looked_of_look hu
  cases h
  rw [hlook.steady hs, hlook.sees]
  exact beq_iff_eq

/-- A look at the active class is one entry. -/
theorem adds_of_isActive {s t : Session σ} {active : Bool}
    (h : (p.isActive job).go s = (.ok active, t)) : ∃ look, s.Adds t [look] := by
  obtain ⟨found, u, hu, h⟩ := Act.go_bind_eq_ok.1 h
  rw [p.host.go_look] at hu
  cases hu
  cases h
  exact ⟨_, .asked s _ _⟩

variable {p job} in
theorem SeenInactive.sees {t : Session σ} (h : p.SeenInactive job t) (hs : p.host.Steady) :
    (p.host.sees t .activeJob : Option Job) ≠ some job := by
  obtain ⟨u, hu, ht⟩ := h
  rw [(Host.looked_of_look ht).steady hs]
  intro ha
  cases (sees_of_isActive hs hu).2 ha

/-! ### Truthfulness -/

/-- What the report of a change says of the session that the change leaves. -/
structure TruthfulChange (s t : Session σ) (changed : Bool) : Prop where
  /-- Confirmed: the class was seen active last, and it is active. -/
  confirmed : changed = true → (p.isActive job).Leaves true t ∧
    (p.host.Steady → (p.host.sees t .activeJob : Option Job) = some job)
  /-- Given up: the class was asked for, its time is up since, and it is not active, unless the
  change was confirmed in the last round. -/
  givenUp : changed = false → ∃ look request after, s.Adds t (look :: request :: after) ∧
    request.event.command? = some (.changeJob job) ∧
    request.time + p.timing.switchTimeout.toNat * 1000 ≤ t.now ∧
    (p.SeenInactive job t ∧
        (p.host.Steady → (p.host.sees t .activeJob : Option Job) ≠ some job) ∨
      p.ConfirmedLast job t)

/-- A change of class reports what really happened. -/
theorem changeJob_is_truthful (s : Session σ) {t : Session σ} {changed : Bool}
    (h : (p.changeJob job).go s = (.ok changed, t)) : p.TruthfulChange job s t changed := by
  have hseen {t : Session σ} (h : (p.isActive job).Leaves true t) :
      p.TruthfulChange job s t true :=
    ⟨fun _ => ⟨h, fun hs => (sees_of_isActive hs h).1 rfl⟩, nofun⟩
  obtain ⟨active, u, hu, h⟩ := Act.go_bind_eq_ok.1 h
  cases active with
  | true => cases h; exact hseen ⟨s, hu⟩
  | false =>
    obtain ⟨_, u', hu', h⟩ := Act.go_bind_eq_ok.1 h
    obtain ⟨_, v, hv, h⟩ := Act.go_bind_eq_ok.1 h
    obtain ⟨now, w, hw, h⟩ := Act.go_bind_eq_ok.1 h
    cases hw
    cases p.awaited_of_awaitJob job h with
    | active ha => exact hseen ha
    | expired hp ha =>
      obtain ⟨look, hl⟩ := p.adds_of_isActive job hu
      rw [Act.go_check] at hu'
      obtain ⟨-, rfl⟩ := Prod.mk.inj hu'
      rw [p.host.go_issue] at hv
      cases hv
      obtain ⟨request, hr, ht, hc⟩ := Session.Adds.begun u (.changeJob job) _
      obtain ⟨⟨after, haf, -⟩, -⟩ := p.gives_awaitJob job _ p.rounds _
      rw [h] at haf
      refine ⟨nofun, fun _ => ⟨look, request, after, hl.trans (hr.trans haf), hc, ?_, ?_⟩⟩
      · unfold deadline? at hp
        split at hp
        · rw [Session.now_begun] at hp
          rw [ht]
          simpa [isPast] using hp
        · cases hp
      · exact ha.imp (fun ha => ⟨ha, ha.sees⟩) id

/-- A game that asks for a confirmation at once, and one that never changes the class. -/
theorem changeJob_is_truthful_of_prompt :
    let p : Setup Scenario := { host := Scenario.host, timing := {}, rounds := 50 }
    let s : Session Scenario := { world := { changePrompts := true } }
    let s' : Session Scenario := { world := { changesApply := false } }
    p.host.Steady ∧ p.TruthfulChange .weaver s ((p.changeJob .weaver).go s).2 true ∧
      p.TruthfulChange .weaver s' ((p.changeJob .weaver).go s').2 false := by
  intro p s s'
  have h : ((p.changeJob .weaver).go s).1 = .ok true := by decide +kernel
  have h' : ((p.changeJob .weaver).go s').1 = .ok false := by decide +kernel
  exact ⟨Scenario.steady_host, p.changeJob_is_truthful .weaver s (Prod.ext h rfl),
    p.changeJob_is_truthful .weaver s' (Prod.ext h' rfl)⟩

/-- A confirmation that is asked for when the time is up is given, and the change is reported as
given up although the class is active from then on. -/
theorem changeJob_given_up_although_active :
    let p : Setup Scenario := { host := Scenario.host, timing := {}, rounds := 50 }
    let s : Session Scenario := { world := {
      changePrompts := true
      reactions := [⟨.changeJob .weaver, [.closes .selectYesNo], some 1⟩]
      events := [⟨10000, [.opens .selectYesNo]⟩] } }
    ((p.changeJob .weaver).go s).1 = .ok false ∧
      (p.host.sees ((p.changeJob .weaver).go s).2 .activeJob : Option Job) = some .weaver := by
  intro p s
  refine ⟨by decide +kernel, ?_⟩
  show @Eq (Option Job) (p.host.sees ((p.changeJob .weaver).go s).2 .activeJob) _
  decide +kernel

end Progression.Setup
