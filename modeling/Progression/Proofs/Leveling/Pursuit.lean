import Progression.Proofs.Interaction.Protocol
import Progression.Proofs.Leveling.Round

/-!
The pursuit of an objective. What it asks for is procured, it is acquired, and it is delivered, and
each of the three may be needless, may fail, or may be called off. `InOrder` strings such parts
together: a part begins where the one before it succeeded, and the first that does not succeed is
the last. A pursuit is then its three parts in order, and what is known of each of them alone is
known of the whole.
-/

namespace Progression

variable {σ : Type}

/-! ### Parts in order -/

/-- What a part of some work adds to the history, whether it succeeds, and where it leaves off. -/
abbrev Part (σ : Type) := Session σ → List Entry → Except Halt Bool → Session σ → Prop

/-- Parts one after the other, up to the first that does not succeed. -/
inductive InOrder : List (Part σ) → Part σ
  | done {s : Session σ} : InOrder [] s [] (.ok true) s
  | stops {R : Part σ} {Rs : List (Part σ)} {s t : Session σ} {es : List Entry}
      {x : Except Halt Bool} : R s es x t → x ≠ .ok true → InOrder (R :: Rs) s es x t
  | goesOn {R : Part σ} {Rs : List (Part σ)} {s t u : Session σ} {es fs : List Entry}
      {x : Except Halt Bool} :
    R s es (.ok true) t → InOrder Rs t fs x u → InOrder (R :: Rs) s (es ++ fs) x u

/-- Work that does a part and tells whether it succeeded. -/
def Act.Does (a : Act σ Bool) (R : Part σ) : Prop :=
  ∀ s, ∃ x t es, a.go s = (x, t) ∧ s.Adds t es ∧ R s es x t

/-- Work that does a part and does not tell. -/
def Act.DoesQuietly (a : Act σ Unit) (R : Part σ) : Prop :=
  ∀ s, ∃ x t es, a.go s = (x.map fun _ => (), t) ∧ s.Adds t es ∧ R s es x t

/-- Work that goes on only if its first part succeeds. -/
theorem Act.Does.before {a : Act σ Bool} {b : Act σ Unit} {R : Part σ} {Rs : List (Part σ)}
    (ha : a.Does R) (hb : b.DoesQuietly (InOrder Rs)) :
    Act.DoesQuietly (do
      if !(← a) then return
      b) (InOrder (R :: Rs)) := by
  intro s
  obtain ⟨x, t, es, hgo, hadds, hR⟩ := ha s
  match x with
  | .error e => exact ⟨.error e, t, es, Act.go_bind_error hgo _, hadds, .stops hR nofun⟩
  | .ok false => exact ⟨.ok false, t, es, Act.go_bind_ok hgo _, hadds, .stops hR nofun⟩
  | .ok true =>
    obtain ⟨y, u, fs, hgo', hadds', hRs⟩ := hb t
    exact ⟨y, u, es ++ fs, (Act.go_bind_ok hgo _).trans hgo', hadds.trans hadds', .goesOn hR hRs⟩

theorem Act.DoesQuietly.last {a : Act σ Unit} {R : Part σ} (ha : a.DoesQuietly R) :
    a.DoesQuietly (InOrder [R]) := by
  intro s
  obtain ⟨x, t, es, hgo, hadds, hR⟩ := ha s
  refine ⟨x, t, es, hgo, hadds, ?_⟩
  by_cases hx : x = .ok true
  · subst hx
    rw [← List.append_nil es]
    exact .goesOn hR .done
  · exact .stops hR hx

/-! ### What comes of a part -/

/-- What comes of a command that may take time; one that is called off stops the work. -/
def answered : Option Bool → Except Halt Bool
  | some success => .ok success
  | none => .error (.failed .cancelled)

theorem Host.attempted_of_attempt (h : Host σ) (c : Command) (s : Session σ) : ∃ success t es,
    (h.attempt c).go s = (answered success, t) ∧ s.Adds t es ∧
      Host.Attempted c s.now t es success := by
  obtain ⟨success, t, es, hgo, hadds, -, ha⟩ := h.attempted_of_attempt? c s
  refine ⟨success, t, es, ?_, hadds, ha⟩
  unfold attempt
  rw [Act.go_bind_ok hgo]
  cases success <;> rfl

/-- What comes of an interaction; one that is called off stops the work. -/
def Interaction.Outcome.settled : Interaction.Outcome → Except Halt Bool
  | .succeeded => .ok true
  | .cancelled => .error (.failed .cancelled)
  | _ => .ok false

theorem Objective.hasDeliverable_iff (o : Objective) :
    o.hasDeliverable = true ↔ o.deliverable ≠ 0 ∧ 0 < o.count := by
  simp [hasDeliverable]

namespace Plan

open Interaction (Outcome Request)

variable (p : Plan σ) (j : Job) (o : Objective)

/-! ### The parts of a pursuit -/

/-- What an objective asks for is procured. -/
inductive Procures : Part σ
  /-- It asks for nothing. -/
  | free {s : Session σ} : ¬ (o.deliverable ≠ 0 ∧ 0 < o.count) → Procures s [] (.ok true) s
  | stocked {s t : Session σ} {held : UInt32} : o.deliverable ≠ 0 ∧ 0 < o.count → o.count ≤ held →
    Procures s [⟨s.now, .asked (.count o.deliverable .any) held⟩] (.ok true) t
  /-- What is missing is ordered, no more and no less. -/
  | orders {s t : Session σ} {held missing : UInt32} {es : List Entry} {success : Option Bool} :
    o.deliverable ≠ 0 ∧ 0 < o.count → held < o.count →
    held.toNat + missing.toNat = o.count.toNat →
    Host.Attempted (.order [{
      item := o.deliverable, amount := missing
      kind := if j ∈ Job.gatherers then "Gather" else j.title }]) s.now t es success →
    Procures s (⟨s.now, .asked (.count o.deliverable .any) held⟩ :: es) (answered success) t

/-- One interaction about an objective, with its actor and at its place. -/
inductive Meets (kind : Interaction) : Part σ
  | meets {r : Request} {s t : Session σ} {outcome : Except Halt Outcome}
      {ticks : List (List Entry)} :
    r = {
      actor := o.actor, objective := o.id, zone := o.zone, place := o.place
      timeout := p.timing.interactionTimeout.toNat * 1000 } →
    (p.interact kind r).go s = (outcome, t) →
    p.Protocol kind r (deadline? s.now r.timeout) ticks →
    Meets kind s ticks.flatten (outcome.bind Outcome.settled) t

/-- An objective is acquired unless it is held. -/
inductive Acquires : Part σ
  | held {s t : Session σ} : Acquires s [⟨s.now, .asked (.held o.id) true⟩] (.ok true) t
  | meets {s t u : Session σ} {es : List Entry} {x : Except Halt Bool} :
    s.Adds t [⟨s.now, .asked (.held o.id) false⟩] → t.now = s.now → p.Meets o .acquire t es x u →
    Acquires s (⟨s.now, .asked (.held o.id) false⟩ :: es) x u

theorem does_procure : (p.procure j o).Does (Procures j o) := by
  intro s
  unfold procure
  by_cases hd : o.deliverable ≠ 0 ∧ 0 < o.count
  · rw [if_neg (by simp [o.hasDeliverable_iff.2 hd]),
      Act.go_bind_ok (p.host.go_look s (.count o.deliverable .any))]
    generalize p.host.ask (.count o.deliverable .any) s.now s.world = a
    have hasked := Session.Adds.asked s _ a
    obtain ⟨state, held, raises⟩ := a
    by_cases hheld : o.count ≤ held
    · rw [if_pos hheld]
      exact ⟨_, _, _, rfl, hasked, .stocked hd hheld⟩
    · have hshort : held.toNat + (o.count - held).toNat = o.count.toNat := by
        have hle : held ≤ o.count := UInt32.le_of_lt (UInt32.not_le.1 hheld)
        have := UInt32.le_iff_toNat_le.1 hle
        rw [UInt32.toNat_sub_of_le _ _ hle]
        omega
      obtain ⟨success, t, es, hgo, hadds, ha⟩ := p.host.attempted_of_attempt
        (.order [{
          item := o.deliverable, amount := o.count - held
          kind := if j ∈ Job.gatherers then "Gather" else j.title }])
        (s.asked (.count o.deliverable .any) ⟨state, held, raises⟩)
      rw [Session.now_asked] at ha
      rw [if_neg hheld, submit_eq]
      exact ⟨_, t, _, hgo, hasked.trans hadds, .orders hd (UInt32.not_le.1 hheld) hshort ha⟩
  · rw [if_pos (by simpa using mt o.hasDeliverable_iff.1 hd)]
    exact ⟨_, s, [], rfl, .refl s, .free hd⟩

theorem exists_meets (kind : Interaction) (s : Session σ) : ∃ outcome t es,
    (p.interact kind (p.request o.actor o.id o.zone o.place)).go s = (outcome, t) ∧
      s.Adds t es ∧ p.Meets o kind s es (outcome.bind Outcome.settled) t := by
  obtain ⟨outcome, t, ticks, hgo, hadds, hcourse⟩ :=
    p.course_of_interact kind (p.request o.actor o.id o.zone o.place) s
  exact ⟨outcome, t, _, hgo, hadds, .meets rfl hgo hcourse.protocol⟩

theorem does_acquireObjective : (p.acquireObjective o).Does (p.Acquires o) := by
  intro s
  unfold acquireObjective Setup.isHeld
  rw [Act.go_bind_ok (p.host.go_look s (.held o.id))]
  generalize p.host.ask (.held o.id) s.now s.world = a
  have hasked := Session.Adds.asked s _ a
  have hnow := s.now_asked _ a
  obtain ⟨state, held, raises⟩ := a
  cases held with
  | true => exact ⟨_, _, _, rfl, hasked, .held⟩
  | false =>
    obtain ⟨outcome, t, es, hgo, hadds, hmeets⟩ := p.exists_meets o .acquire
      (s.asked (.held o.id) ⟨state, false, raises⟩)
    refine ⟨_, t, _, ?_, hasked.trans hadds, .meets hasked hnow hmeets⟩
    rw [if_neg Bool.false_ne_true]
    cases outcome with
    | error e => exact Act.go_bind_error hgo _
    | ok outcome =>
      rw [Act.go_bind_ok hgo]
      cases outcome <;> rfl

/-- The last part of a pursuit. -/
def deliver : Act σ Unit := do
  match ← p.interact .deliver (p.request o.actor o.id o.zone o.place) with
  | .cancelled => Act.fail .cancelled
  | _ => return

theorem does_deliver : (p.deliver o).DoesQuietly (p.Meets o .deliver) := by
  intro s
  obtain ⟨outcome, t, es, hgo, hadds, hmeets⟩ := p.exists_meets o .deliver s
  refine ⟨_, t, es, ?_, hadds, hmeets⟩
  unfold deliver
  cases outcome with
  | error e => exact Act.go_bind_error hgo _
  | ok outcome =>
    rw [Act.go_bind_ok hgo]
    cases outcome <;> rfl

/-- A pursuit procures, acquires and delivers, each of it only if what came before succeeded. What
fails ends it without an error; it stops only when it is called off, or when an interaction does not
come to its end. -/
theorem pursue_stops_at_failure (p : Plan σ) (j : Job) (o : Objective) (s : Session σ) :
    ∃ x t es, (p.pursue j o).go s = (x.map fun _ => (), t) ∧ s.Adds t es ∧
      InOrder [Procures j o, p.Acquires o, p.Meets o .deliver]
        (s.directed "Objective" (Number.text o.id.toNat ++ " for " ++ j.title)) es x t ∧
      ∀ e, x = .error e → p.Halts t e := by
  have hparts := (p.does_procure j o).before ((p.does_acquireObjective o).before
    (p.does_deliver o).last)
  obtain ⟨x, t, es, hgo, hadds, horder⟩ := hparts
    (s.directed "Objective" (Number.text o.id.toNat ++ " for " ++ j.title))
  have hpursue : (p.pursue j o).go s = (x.map fun _ => (), t) :=
    (Act.go_bind_ok (Act.go_publishDirective s _ _) _).trans hgo
  refine ⟨x, t, es, hpursue, hadds, horder, ?_⟩
  rintro e rfl
  obtain ⟨result, t', es', hgo', hd⟩ := p.directed_pursue j o s
  rw [hpursue] at hgo'
  cases hgo'
  exact hd.halts e rfl

end Plan
end Progression
