import Progression.Proofs.Replay

/-!
Leveling along a relation between sessions. Besides what unlocks consist of, leveling marks its
rounds and publishes what it reads; a relation that both keep holds across it, one lemma for each
function.
-/

namespace Progression

variable {σ α : Type}

/-- A relation between sessions that holds across everything that leveling consists of. -/
structure Host.CarriesLeveling (h : Host σ) (R : Session σ → Session σ → Prop) : Prop
    extends h.Carries R where
  marked : ∀ s j level, R s (s.note (.round j level))
  published : ∀ {s t : Session σ}, t.world = s.world → t.time = s.time → t.history = s.history →
    R s t

theorem Host.carriesLeveling_replays (h : Host σ) : h.CarriesLeveling h.Replays where
  toCarries := h.carries_replays
  marked s j level := .single (s.history_note (.round j level)) rfl nofun
  published hworld _ hhistory := ⟨[], hhistory, trivial, hworld⟩

section Publishing

variable {h : Host σ} {R : Session σ → Session σ → Prop} (hR : h.CarriesLeveling R)

include hR

theorem Act.along_publishDirective (directive detail : String) :
    (Act.publishDirective directive detail : Act σ Unit).Along R :=
  fun _ => hR.published rfl rfl rfl

theorem Act.along_publishLevels (levels : List (Job × UInt32)) :
    (Act.publishLevels levels : Act σ Unit).Along R :=
  fun _ => hR.published rfl rfl rfl

end Publishing

/-! ### Objectives that can be taken -/

section Eligible

variable {h : Host σ} {R : Session σ → Session σ → Prop} (hR : h.Carries R)

include hR

theorem Objective.along_isEligible (o : Objective) (level : UInt32) :
    (o.isEligible h.look level).Along R := by
  unfold isEligible
  split
  · exact Act.along_pure hR _
  · refine Act.Along.bind hR (Host.along_look hR _) ?_
    intro completed
    split
    · exact Act.along_pure hR _
    · refine Act.Along.bind hR (Host.along_look hR _) ?_
      intro held
      split
      · exact Act.along_pure hR _
      · split
        · exact Act.along_pure hR _
        · exact Host.along_look hR _

theorem Objective.along_firstEligible? (level : UInt32) (os : List Objective) :
    (Objective.firstEligible? h.look level os).Along R := by
  induction os with
  | nil => exact Act.along_pure hR _
  | cons o os ih =>
    refine Act.Along.bind hR (o.along_isEligible hR level) ?_
    intro eligible
    split
    · exact Act.along_pure hR _
    · exact ih

end Eligible

namespace Plan

variable (p : Plan σ) {R : Session σ → Session σ → Prop} (j : Job)

/-! ### Levels, orders and acquiring -/

section Unpublished

variable (hR : p.host.Carries R)

include hR

theorem along_levels (js : List Job) : (p.levels js).Along R := by
  induction js with
  | nil => exact Act.along_pure hR _
  | cons j js ih =>
    refine Act.Along.bind hR (Host.along_look hR _) fun _ => ?_
    exact Act.Along.bind hR ih fun _ => Act.along_pure hR _

theorem along_submit (item : ItemId) (amount : UInt32) : (p.submit item amount j).Along R := by
  refine Act.Along.bind hR (Host.along_attempt? hR _) ?_
  intro success
  split
  · exact Act.along_pure hR _
  · exact Act.along_fail hR _

theorem along_procure (o : Objective) : (p.procure j o).Along R := by
  unfold procure
  split
  · exact Act.along_pure hR _
  · refine Act.Along.bind hR (Host.along_look hR _) ?_
    intro count
    split
    · exact Act.along_pure hR _
    · exact p.along_submit j hR _ _

theorem along_acquireObjective (o : Objective) : (p.acquireObjective o).Along R := by
  refine Act.Along.bind hR (Host.along_look hR _) ?_
  intro held
  split
  · exact Act.along_pure hR _
  · refine Act.Along.bind hR (p.along_interact hR _ _) ?_
    intro outcome
    split
    · exact Act.along_pure hR _
    · exact Act.along_fail hR _
    · exact Act.along_pure hR _

end Unpublished

/-! ### Rounds -/

variable (hR : p.host.CarriesLeveling R)

include hR

theorem along_refreshTargets : p.refreshTargets.Along R := by
  refine Act.Along.bind hR.toCarries (p.along_levels hR.toCarries _) fun levels => ?_
  exact Act.Along.bind hR.toCarries (fun _ => hR.published rfl rfl rfl) fun _ =>
    Act.along_publishLevels hR levels

theorem along_pursue (o : Objective) : (p.pursue j o).Along R := by
  have hC := hR.toCarries
  refine Act.Along.bind hC (Act.along_publishDirective hR _ _) fun _ => ?_
  refine Act.Along.bind hC (p.along_procure j hC o) ?_
  intro procured
  split
  · exact Act.along_pure hC _
  · refine Act.Along.bind hC (p.along_acquireObjective hC o) ?_
    intro acquired
    split
    · exact Act.along_pure hC _
    · refine Act.Along.bind hC (p.along_interact hC _ _) ?_
      intro outcome
      split
      · exact Act.along_fail hC _
      · exact Act.along_pure hC _

theorem along_pursueAny (objective : Option Objective) : (p.pursueAny j objective).Along R := by
  cases objective with
  | none => exact Act.along_pure hR.toCarries _
  | some o => exact p.along_pursue j hR o

theorem along_grindAny (grind : Option Grind) : (p.grindAny j grind).Along R := by
  have hC := hR.toCarries
  cases grind with
  | none => exact Act.along_pure hC _
  | some g =>
    have hgrind : (p.grind j g).Along R :=
      Act.Along.bind hC (Act.along_publishDirective hR _ _) fun _ => p.along_submit j hC _ _
    refine Act.Along.bind hC hgrind ?_
    intro success
    split <;> exact Act.along_pure hC _

theorem along_levelRound (before : UInt32) : (p.levelRound j before).Along R := by
  have hC := hR.toCarries
  refine Act.Along.bind hC (Objective.along_firstEligible? hC _ _) ?_
  intro objective
  dsimp only
  split
  · exact Act.along_pure hC _
  · refine Act.Along.bind hC (p.along_pursueAny j hR _) fun _ => ?_
    refine Act.Along.bind hC (p.along_grindAny j hR _) ?_
    intro ended
    split
    · exact Act.along_pure hC _
    · refine Act.Along.bind hC (p.along_refreshTargets hR) fun _ => ?_
      exact Act.Along.bind hC (Host.along_look hC _) fun _ => Act.along_pure hC _

theorem along_levelFrom (goal : UInt32) (iterations n : Nat) :
    (p.levelFrom j goal iterations n).Along R := by
  have hC := hR.toCarries
  induction n generalizing iterations with
  | zero => exact Act.Along.bind hC (Act.along_check hC) fun _ => Act.along_throw hC _
  | succ n ih =>
    refine Act.Along.bind hC (Act.along_check hC) fun _ => ?_
    refine Act.Along.bind hC (Host.along_look hC _) ?_
    intro before
    split
    · exact Act.along_pure hC _
    · refine Act.Along.bind hC (fun s => hR.marked s j before) fun _ => ?_
      refine Act.Along.bind hC (p.along_levelRound j hR before) ?_
      intro ended
      split
      · exact Act.along_pure hC _
      · exact ih _

theorem along_levelClass (phase : Phase) : (p.levelClass phase j).Along R := by
  have hC := hR.toCarries
  refine Act.Along.bind hC (Host.along_look hC _) ?_
  intro start
  dsimp only
  split
  · exact Act.along_pure hC _
  · split
    · exact Act.along_pure hC _
    · refine Act.Along.bind hC (Act.along_publishDirective hR _ _) fun _ => ?_
      refine Act.Along.bind hC (p.along_switchAndEquip hC j) ?_
      intro switched
      split
      · exact Act.along_pure hC _
      · refine Act.Along.bind hC (p.along_levelFrom j hR _ _ _) ?_
        rintro ⟨outcome, iterations⟩
        exact Act.Along.bind hC (Host.along_look hC _) fun _ => Act.along_pure hC _

end Plan
end Progression
