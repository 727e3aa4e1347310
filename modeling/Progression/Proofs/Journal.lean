import Mathlib.Data.Fintype.Card
import Mathlib.Data.UInt
import Mathlib.Logic.Relation
import Mathlib.Order.WellFounded
import Progression.Cli.Plan
import Progression.Proofs.Choosing

/-!
Objectives completed one after another. Whether an objective can be taken is said by the journal as
it is; that the objectives of a class lead on to the last of them is about all the journals that
follow. While one of them is left, one can be taken: where prerequisites do not lead in a circle,
there is one among those left whose prerequisite is not (`Chained.exists_eligible`). Each one that
is completed leaves fewer, and takes away none of the others (`Eligible.complete`).
-/

namespace Progression

namespace Oracle

variable (ask : Oracle Id)

def isCompleted (id : ObjectiveId) : Bool := ask (.completed id)

def isHeld (id : ObjectiveId) : Bool := ask (.held id)

/-- What the game answers once an objective is completed: it is held no more. -/
def complete (id : ObjectiveId) : Oracle Id
  | .completed k => decide (k = id) || ask.isCompleted k
  | .held k => decide (k ≠ id) && ask.isHeld k
  | .stage k => ask (.stage k)
  | .count item quality => ask (.count item quality)
  | .level j => ask (.level j)
  | .activeJob => ask .activeJob
  | .isOpen w => ask (.isOpen w)
  | .actor id => ask (.actor id)

@[simp] theorem isCompleted_complete (id k : ObjectiveId) :
    (ask.complete id).isCompleted k = (decide (k = id) || ask.isCompleted k) := rfl

@[simp] theorem isHeld_complete (id k : ObjectiveId) :
    (ask.complete id).isHeld k = (decide (k ≠ id) && ask.isHeld k) := rfl

end Oracle

namespace Objective

variable {ask : Oracle Id} {level low high : UInt32} {id : ObjectiveId} {o o' : Objective}
  {os : List Objective}

/-! ### The first that can be taken -/

theorem eligible_iff : o.Eligible ask level ↔ o.level ≤ level ∧ ask.isCompleted o.id = false ∧
    ask.isHeld o.id = false ∧ (o.prerequisite = 0 ∨ ask.isCompleted o.prerequisite = true) :=
  ⟨fun h => ⟨h.1, h.2, h.3, h.4⟩, fun ⟨h₁, h₂, h₃, h₄⟩ => ⟨h₁, h₂, h₃, h₄⟩⟩

instance (ask : Oracle Id) (level : UInt32) (o : Objective) : Decidable (o.Eligible ask level) :=
  decidable_of_iff _ eligible_iff.symm

theorem isEligible_eq_decide :
    (o.isEligible ask level).run = decide (o.Eligible ask level) := by
  have hrun : (o.isEligible ask level).run = if level < o.level then false else
      if ask.isCompleted o.id then false else if ask.isHeld o.id then false else
      if o.prerequisite = 0 then true else ask.isCompleted o.prerequisite := rfl
  rw [hrun, Bool.eq_iff_iff, decide_eq_true_iff, eligible_iff, ← UInt32.not_lt]
  split_ifs <;> simp_all

theorem firstEligible?_eq_find? (ask : Oracle Id) (level : UInt32) (os : List Objective) :
    (firstEligible? ask level os).run = os.find? fun o => o.Eligible ask level := by
  induction os with
  | nil => rfl
  | cons o os ih =>
    rw [List.find?_cons, ← ih, ← isEligible_eq_decide]
    change Id.run (if (o.isEligible ask level).run then some o else firstEligible? ask level os) = _
    cases (o.isEligible ask level).run <;> rfl

theorem firstEligible?_eq_none_iff :
    (firstEligible? ask level os).run = none ↔ ∀ o ∈ os, ¬ o.Eligible ask level := by
  simp only [firstEligible?_eq_find?, List.find?_eq_none, decide_eq_true_iff]

theorem firstEligible?_eq_some_iff : (firstEligible? ask level os).run = some o ↔
    o.Eligible ask level ∧ ∃ front back, os = front ++ o :: back ∧
      ∀ k ∈ front, ¬ k.Eligible ask level := by
  simp only [firstEligible?_eq_find?, List.find?_eq_some_iff_append, decide_eq_true_iff,
    Bool.not_eq_true', decide_eq_false_iff_not]

theorem firstEligible?_mem (h : (firstEligible? ask level os).run = some o) : o ∈ os :=
  List.mem_of_find?_eq_some (firstEligible?_eq_find? .. ▸ h)

theorem Eligible.mono (hle : low ≤ high) (h : o.Eligible ask low) : o.Eligible ask high :=
  ⟨UInt32.le_trans h.reached hle, h.pending, h.free, h.prepared⟩

/-- At a higher level the first objective that can be taken is the same, or one before it. -/
theorem firstEligible?_mono (hle : low ≤ high) (h : (firstEligible? ask low os).run = some o) :
    ∃ o', (firstEligible? ask high os).run = some o' ∧ os.idxOf o' ≤ os.idxOf o := by
  obtain ⟨ho, front, back, rfl, hfront⟩ := firstEligible?_eq_some_iff.1 h
  have hnot : o ∉ front := fun hmem => hfront o hmem ho
  have hplace : (front ++ o :: back).idxOf o = front.length := by
    rw [List.idxOf_append_of_notMem hnot, List.idxOf_cons_self, Nat.add_zero]
  rw [firstEligible?_eq_find?, List.find?_append, hplace]
  cases hearlier : front.find? fun o => o.Eligible ask high with
  | none => exact ⟨o, by simp [ho.mono hle], hplace.le⟩
  | some o' =>
    refine ⟨o', rfl, ?_⟩
    rw [List.idxOf_append_of_mem (List.mem_of_find?_eq_some hearlier)]
    exact List.idxOf_le_length

/-! ### After one is completed -/

/-- What can be taken can still be taken after another one is completed. -/
theorem Eligible.complete (h : o.Eligible ask level) (hne : o.id ≠ id) :
    o.Eligible (ask.complete id) level := by
  obtain ⟨hreached, hpending, hfree, hprepared⟩ := eligible_iff.1 h
  refine eligible_iff.2 ⟨hreached, by simp [hne, hpending], by simp [hfree], ?_⟩
  exact hprepared.imp_right fun hp => by simp [hp]

/-- The objectives that are not completed. -/
def left (ask : Oracle Id) (os : List Objective) : List Objective :=
  os.filter fun o => !ask.isCompleted o.id

theorem mem_left : o ∈ left ask os ↔ o ∈ os ∧ ask.isCompleted o.id = false := by simp [left]

theorem left_complete (ask : Oracle Id) (id : ObjectiveId) (os : List Objective) :
    left (ask.complete id) os = (left ask os).filter (·.id ≠ id) := by
  simp [left, List.filter_filter]

theorem length_left_complete_lt (h : (firstEligible? ask level os).run = some o) :
    (left (ask.complete o.id) os).length < (left ask os).length := by
  rw [left_complete, List.length_filter_lt_length_iff_exists]
  have ho := (firstEligible?_eq_some_iff.1 h).1
  exact ⟨o, mem_left.2 ⟨firstEligible?_mem h, ho.pending⟩, by simp⟩

/-- The objectives that are completed, if again and again the first one that can be taken is. -/
def completions (level : UInt32) (os : List Objective) (ask : Oracle Id) : List Objective :=
  match _ : (firstEligible? ask level os).run with
  | none => []
  | some o => o :: completions level os (ask.complete o.id)
termination_by (left ask os).length
decreasing_by exact length_left_complete_lt ‹_›

theorem completions_of_none (h : (firstEligible? ask level os).run = none) :
    completions level os ask = [] := by
  rw [completions]
  split <;> simp_all

theorem completions_of_some (h : (firstEligible? ask level os).run = some o) :
    completions level os ask = o :: completions level os (ask.complete o.id) := by
  rw [completions]
  split <;> simp_all

/-! ### Chains -/

/-- An objective that is listed comes after its prerequisite. -/
def Needs (os : List Objective) (id prerequisite : ObjectiveId) : Prop :=
  ∃ o ∈ os, o.id = id ∧ o.prerequisite = prerequisite ∧ prerequisite ≠ 0

/-- Objectives that can be completed one after another: their prerequisites lead to no circle and
out of the list only to what is completed, none of them is held, and the level is reached. -/
structure Chained (level : UInt32) (os : List Objective) (ask : Oracle Id) : Prop where
  acyclic : ∀ id, ¬ Relation.TransGen (Needs os) id id
  grounded : ∀ o ∈ os, o.prerequisite = 0 ∨ o.prerequisite ∈ os.map (·.id) ∨
    ask.isCompleted o.prerequisite = true
  free : ∀ o ∈ os, ask.isHeld o.id = false
  reached : ∀ o ∈ os, o.level ≤ level

/-- Objectives completed one after another, as a journal has it in which none can be taken at
last. -/
structure Concludes (level : UInt32) (os : List Objective) (ask : Oracle Id)
    (run : List Objective) : Prop where
  listed : ∀ o ∈ run, o ∈ os
  once : (run.map (·.id)).Nodup
  /-- What was completed before is left alone, and everything else is completed. -/
  all : ∀ o ∈ os, o.id ∈ run.map (·.id) ↔ ask.isCompleted o.id = false
  ordered : ∀ front o back, run = front ++ o :: back →
    o.prerequisite = 0 ∨ ask.isCompleted o.prerequisite = true ∨
      o.prerequisite ∈ front.map (·.id)
  exhausted : (firstEligible? (run.foldl (fun ask o => ask.complete o.id) ask) level os).run = none

theorem wellFounded_needs (h : ∀ id, ¬ Relation.TransGen (Needs os) id id) :
    WellFounded (fun k id => Relation.TransGen (Needs os) id k) := by
  have : Finite UInt32 := .of_injective UInt32.toFin fun _ _ => UInt32.toFin_inj.1
  have : IsTrans UInt32 fun k id => Relation.TransGen (Needs os) id k :=
    ⟨fun _ _ _ hab hbc => hbc.trans hab⟩
  have : Std.Irrefl fun k id => Relation.TransGen (Needs os) id k := ⟨h⟩
  exact Finite.wellFounded_of_trans_of_irrefl _

namespace Chained

variable (h : Chained level os ask)

include h

theorem complete (id : ObjectiveId) : Chained level os (ask.complete id) where
  acyclic := h.acyclic
  grounded o ho := (h.grounded o ho).imp_right (Or.imp_right fun hp => by simp [hp])
  free o ho := by simp [h.free o ho]
  reached := h.reached

/-- While an objective is left, one can be taken: of those left, one that needs no other. -/
theorem exists_eligible (hleft : left ask os ≠ []) : ∃ o ∈ os, o.Eligible ask level := by
  obtain ⟨o, ho⟩ := List.exists_mem_of_ne_nil _ hleft
  let Left (id : ObjectiveId) : Prop := id ∈ (left ask os).map (·.id)
  obtain ⟨id, hid, hmin⟩ :=
    (wellFounded_needs h.acyclic).has_min {id | Left id} ⟨o.id, List.mem_map_of_mem ho⟩
  obtain ⟨o, ho, rfl⟩ := List.mem_map.1 hid
  obtain ⟨hmem, hpending⟩ := mem_left.1 ho
  refine ⟨o, hmem, eligible_iff.2 ⟨h.reached o hmem, hpending, h.free o hmem, ?_⟩⟩
  by_contra! hnot
  obtain ⟨hne, hprerequisite⟩ := hnot
  obtain ⟨o', ho', hid'⟩ := List.mem_map.1
    (((h.grounded o hmem).resolve_left hne).resolve_right hprerequisite)
  have hleft' : o' ∈ left ask os := mem_left.2 ⟨ho', by simpa [hid'] using hprerequisite⟩
  exact hmin o'.id (List.mem_map_of_mem hleft') (.single ⟨o, hmem, rfl, hid'.symm, hid' ▸ hne⟩)

theorem firstEligible?_eq_none_iff : (firstEligible? ask level os).run = none ↔
    ∀ o ∈ os, ask.isCompleted o.id = true := by
  rw [Objective.firstEligible?_eq_none_iff]
  constructor
  · intro hnone
    by_contra! hleft
    obtain ⟨o, ho, hpending⟩ := hleft
    have hne : left ask os ≠ [] :=
      List.ne_nil_of_mem (mem_left.2 ⟨ho, by simpa using hpending⟩)
    obtain ⟨o, ho, heligible⟩ := h.exists_eligible hne
    exact hnone o ho heligible
  · intro hall o ho heligible
    have hpending : ask.isCompleted o.id = false := heligible.pending
    rw [hall o ho] at hpending
    cases hpending

end Chained

/-- What is concluded after one more objective was completed. -/
theorem Concludes.cons {run : List Objective} (h : (firstEligible? ask level os).run = some o)
    (hrun : Concludes level os (ask.complete o.id) run) :
    Concludes level os ask (o :: run) where
  listed := List.forall_mem_cons.2 ⟨firstEligible?_mem h, hrun.listed⟩
  once := by
    refine List.nodup_cons.2 ⟨fun hmem => ?_, hrun.once⟩
    have := (hrun.all o (firstEligible?_mem h)).1 hmem
    simp at this
  all k hk := by
    have hpending : ask.isCompleted o.id = false := (firstEligible?_eq_some_iff.1 h).1.pending
    rw [List.map_cons, List.mem_cons, hrun.all k hk, Oracle.isCompleted_complete]
    by_cases heq : k.id = o.id
    · simp [heq, hpending]
    · simp [heq]
  ordered front k back hsplit := by
    cases front with
    | nil =>
      cases hsplit
      exact (eligible_iff.1 (firstEligible?_eq_some_iff.1 h).1).2.2.2.imp_right .inl
    | cons o' front =>
      cases hsplit
      have := hrun.ordered front k back rfl
      simp only [Oracle.isCompleted_complete, Bool.or_eq_true, decide_eq_true_iff] at this
      simp only [List.map_cons, List.mem_cons]
      tauto
  exhausted := hrun.exhausted

theorem Chained.concludes (h : Chained level os ask) :
    Concludes level os ask (completions level os ask) := by
  induction hn : (left ask os).length using Nat.strong_induction_on generalizing ask with
  | _ n ih =>
    cases hfirst : (firstEligible? ask level os).run with
    | none =>
      rw [completions_of_none hfirst]
      have hall := h.firstEligible?_eq_none_iff.1 hfirst
      refine ⟨by simp, by simp, fun o ho => by simp [hall o ho], by simp, hfirst⟩
    | some o =>
      rw [completions_of_some hfirst]
      exact (ih _ (hn ▸ length_left_complete_lt hfirst) (h.complete o.id) rfl).cons hfirst

/-- Prerequisites that are always lower lead to no circle. -/
theorem acyclic_of_lt (h : ∀ o ∈ os, o.prerequisite ≠ 0 → o.prerequisite < o.id) :
    ∀ id, ¬ Relation.TransGen (Needs os) id id := by
  have hlt : ∀ id k, Relation.TransGen (Needs os) id k → k < id := by
    intro id k hk
    induction hk with
    | single hk =>
      obtain ⟨o, ho, rfl, rfl, hne⟩ := hk
      exact h o ho hne
    | tail _ hk ih =>
      obtain ⟨o, ho, rfl, rfl, hne⟩ := hk
      exact UInt32.lt_trans (h o ho hne) ih
  exact fun id hk => UInt32.lt_irrefl id (hlt id id hk)

end Objective

open Objective in
/-- **Objectives lead on to the last of them.** Where the objectives of a class are chained, none can
be taken exactly if all are completed, and completing the first that can be taken, again and again,
completes each one that was left, once and after its prerequisite. A higher level is never answered
with a later objective, and none is lost by completing another. -/
theorem Tables.objectives_lead_on (t : Tables) (j : Job) (ask : Oracle Id) :
    (∀ level, Chained level (t.objectivesFor j) ask →
      ((firstEligible? ask level (t.objectivesFor j)).run = none ↔
        ∀ o ∈ t.objectivesFor j, ask.isCompleted o.id = true) ∧
      Concludes level (t.objectivesFor j) ask (completions level (t.objectivesFor j) ask)) ∧
    (∀ low high o, low ≤ high → (firstEligible? ask low (t.objectivesFor j)).run = some o →
      ∃ o', (firstEligible? ask high (t.objectivesFor j)).run = some o' ∧
        (t.objectivesFor j).idxOf o' ≤ (t.objectivesFor j).idxOf o) ∧
    ∀ level id, ∀ o ∈ t.objectivesFor j, o.Eligible ask level → o.id ≠ id →
      o.Eligible (ask.complete id) level :=
  ⟨fun _ h => ⟨h.firstEligible?_eq_none_iff, h.concludes⟩, fun _ _ _ => firstEligible?_mono,
    fun _ _ _ _ => Eligible.complete⟩

open Objective in
/-- An objective that is listed before the one it needs, which needs what the table does not list;
after them one that needs nothing. -/
theorem Tables.objectives_lead_on_of_backwards :
    let place : Position := ⟨.zero, .zero, .zero⟩
    let third : Objective := ⟨3, 2, 5, 1, 1, place, 0, 0⟩
    let second : Objective := ⟨2, 1, 4, 1, 1, place, 0, 0⟩
    let other : Objective := ⟨9, 0, 1, 1, 1, place, 0, 0⟩
    let t : Tables := { objectives := [(.miner, [third, second, other])] }
    let ask := Cli.completedOnly [1]
    Chained 5 (t.objectivesFor .miner) ask ∧
      Concludes 5 (t.objectivesFor .miner) ask [second, third, other] ∧
      other.Eligible (ask.complete 2) 1 := by
  intro place third second other t ask
  have hchained : Chained 5 (t.objectivesFor .miner) ask :=
    ⟨acyclic_of_lt (by decide), by decide, by decide, by decide⟩
  have hrun : completions 5 (t.objectivesFor .miner) ask = [second, third, other] := by
    rw [completions_of_some (o := second) (by decide), completions_of_some (o := third) (by decide),
      completions_of_some (o := other) (by decide), completions_of_none (by decide)]
  obtain ⟨hleads, -, hstays⟩ := objectives_lead_on t .miner ask
  exact ⟨hchained, hrun ▸ (hleads 5 hchained).2,
    hstays 1 2 other (by decide) (by decide) (by decide)⟩

end Progression
