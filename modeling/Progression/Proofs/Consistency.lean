import Mathlib.Data.List.Chain
import Mathlib.Data.List.Nodup
import Progression.Tables

/-!
Tables that are accepted. Each check goes through its list once, with what it has seen so far, and
compares an entry with that only. What the three checks accept is said here of the lists as they
are: no class is unlocked in two ways, the levels of what a class produces rise along the list,
however the classes are mixed in it, and no objective is listed twice for a class. What is refused
is refused for a reason that the lists bear out.

A check that began with nothing seen is in the midst of its list later on, so each lemma is about
any beginning: `Fresh` is what a list is when some of its values are taken, `Rising` when an entry of
the class came before.
-/

namespace Progression

/-! ### Values that are seen once -/

section
variable {α : Type}

/-- No value of the list is there twice, and none of them is taken. -/
def Fresh (taken xs : List α) : Prop := xs.Nodup ∧ ∀ x ∈ xs, x ∉ taken

@[simp] theorem fresh_nil (taken : List α) : Fresh taken [] := ⟨List.nodup_nil, by simp⟩

@[simp] theorem fresh_of_nothing {xs : List α} : Fresh [] xs ↔ xs.Nodup := by simp [Fresh]

theorem fresh_cons {taken xs : List α} {x : α} :
    Fresh taken (x :: xs) ↔ x ∉ taken ∧ Fresh (x :: taken) xs := by
  constructor
  · rintro ⟨hnodup, hfree⟩
    obtain ⟨hx, hxs⟩ := List.nodup_cons.1 hnodup
    refine ⟨hfree x List.mem_cons_self, hxs, fun y hy hmem => ?_⟩
    rcases List.mem_cons.1 hmem with rfl | htaken
    · exact hx hy
    · exact hfree y (List.mem_cons_of_mem _ hy) htaken
  · rintro ⟨hx, hxs, hfree⟩
    refine ⟨List.nodup_cons.2 ⟨fun hmem => hfree x hmem List.mem_cons_self, hxs⟩, ?_⟩
    refine List.forall_mem_cons.2 ⟨hx, fun y hy htaken => ?_⟩
    exact hfree y hy (List.mem_cons_of_mem _ htaken)

variable [DecidableEq α]

/-- The first value that is taken, by what was given or by an earlier value. -/
def repeated? : List α → List α → Option α
  | _, [] => none
  | taken, x :: xs => if taken.contains x then some x else repeated? (x :: taken) xs

theorem repeated?_eq_none {taken xs : List α} : repeated? taken xs = none ↔ Fresh taken xs := by
  induction xs generalizing taken with
  | nil => simp [repeated?]
  | cons x xs ih => rw [repeated?, fresh_cons, ← ih]; simp [ite_eq_iff]

theorem count_of_repeated? {taken xs : List α} {x : α} (h : repeated? taken xs = some x) :
    2 ≤ taken.count x + xs.count x := by
  induction xs generalizing taken with
  | nil => cases h
  | cons y ys ih =>
    rw [repeated?] at h
    split at h
    · next htaken =>
      cases h
      have := List.count_pos_iff.2 (List.contains_iff_mem.1 htaken)
      rw [List.count_cons_self]
      omega
    · have := ih h
      rw [List.count_cons] at this ⊢
      omega

end

namespace Tables

theorem duplicateUnlock?_eq (seen : List Job) (us : List Unlock) :
    duplicateUnlock? seen us = repeated? seen (us.map (·.job)) := by
  induction us generalizing seen with
  | nil => rfl
  | cons u us ih => rw [duplicateUnlock?, ih]; rfl

theorem duplicateObjective?_eq (seen : List ObjectiveId) (os : List Objective) :
    duplicateObjective? seen os = repeated? seen (os.map (·.id)) := by
  induction os generalizing seen with
  | nil => rfl
  | cons o os ih => rw [duplicateObjective?, ih]; rfl

/-! ### Levels that rise -/

/-- From one entry to the next the levels rise, also from the one that came before the list. -/
def Rising (last : Option Grind) (gs : List Grind) : Prop :=
  ((last.toList ++ gs).map (·.level)).IsChain (· < ·)

theorem rising_cons {last : Option Grind} {g : Grind} {gs : List Grind} :
    Rising last (g :: gs) ↔ (∀ l ∈ last, l.level < g.level) ∧ Rising (some g) gs := by
  cases last with
  | none => simp [Rising]
  | some l => simp [Rising, List.isChain_cons_cons]

/-- A level is above all that came before it, if it is above the one before it. -/
theorem rising_of_nothing {gs : List Grind} :
    Rising none gs ↔ (gs.map (·.level)).Pairwise (· < ·) := List.isChain_iff_pairwise

/-- The step of the check: an entry is compared with the last one of its class. -/
theorem unorderedGrind?_cons_eq_none {seen gs : List Grind} {g : Grind} :
    unorderedGrind? seen (g :: gs) = none ↔
      (∀ l ∈ seen.find? (·.job = g.job), l.level < g.level)
        ∧ unorderedGrind? (g :: seen) gs = none := by
  rw [unorderedGrind?]
  cases seen.find? (·.job = g.job) with
  | none => simp
  | some l => simp [ite_eq_iff]

theorem unorderedGrind?_eq_none {seen gs : List Grind} :
    unorderedGrind? seen gs = none ↔
      ∀ j, Rising (seen.find? (·.job = j)) (gs.filter (·.job = j)) := by
  induction gs generalizing seen with
  | nil =>
    have hrising : ∀ last, Rising last [] := by rintro (_ | _) <;> simp [Rising]
    simp [unorderedGrind?, hrising]
  | cons g gs ih =>
    rw [unorderedGrind?_cons_eq_none, ih]
    -- Of the classes only the one of the entry is concerned.
    have own : Rising (seen.find? (·.job = g.job)) ((g :: gs).filter (·.job = g.job)) ↔
        (∀ l ∈ seen.find? (·.job = g.job), l.level < g.level)
          ∧ Rising ((g :: seen).find? (·.job = g.job)) (gs.filter (·.job = g.job)) := by
      rw [List.filter_cons_of_pos (by simp), List.find?_cons_of_pos (by simp), rising_cons]
    have other : ∀ j, g.job ≠ j →
        (Rising (seen.find? (·.job = j)) ((g :: gs).filter (·.job = j)) ↔
          Rising ((g :: seen).find? (·.job = j)) (gs.filter (·.job = j))) := by
      intro j hj
      rw [List.filter_cons_of_neg (by simpa using hj), List.find?_cons_of_neg (by simpa using hj)]
    constructor
    · rintro ⟨hlast, hrest⟩ j
      by_cases hj : g.job = j
      · subst hj
        exact own.2 ⟨hlast, hrest g.job⟩
      · exact (other j hj).2 (hrest j)
    · intro h
      refine ⟨(own.1 (h g.job)).1, fun j => ?_⟩
      by_cases hj : g.job = j
      · subst hj
        exact (own.1 (h g.job)).2
      · exact (other j hj).1 (h j)

/-- An entry that is out of order comes right after the one it is compared with, among the entries
of its class. -/
theorem neighbours_of_unorderedGrind? {seen gs : List Grind} {g : Grind} {level : UInt32}
    (h : unorderedGrind? seen gs = some (g, level)) : ∃ last front back,
      (seen.reverse ++ gs).filter (·.job = g.job) = front ++ last :: g :: back ∧
        level = last.level ∧ g.level ≤ last.level := by
  induction gs generalizing seen with
  | nil => cases h
  | cons g' gs ih =>
    have goesOn (h : unorderedGrind? (g' :: seen) gs = some (g, level)) : ∃ last front back,
        (seen.reverse ++ g' :: gs).filter (·.job = g.job) = front ++ last :: g :: back ∧
          level = last.level ∧ g.level ≤ last.level := by simpa using ih h
    rw [unorderedGrind?] at h
    split at h
    · next last hlast =>
      split at h
      · next hle =>
        cases h
        obtain ⟨hjob, later, earlier, rfl, hlater⟩ := List.find?_eq_some_iff_append.1 hlast
        have hnone : later.reverse.filter (·.job = g.job) = [] := by
          simpa [List.filter_eq_nil_iff] using hlater
        refine ⟨last, earlier.reverse.filter (·.job = g.job), gs.filter (·.job = g.job), ?_, rfl, hle⟩
        have hlast : [last].filter (·.job = g.job) = [last] := List.filter_cons_of_pos hjob
        rw [List.filter_append, List.reverse_append, List.reverse_cons, List.filter_append,
          List.filter_append, hnone, hlast, List.filter_cons_of_pos (by simp)]
        simp
      · exact goesOn h
    · exact goesOn h

/-! ### Acceptance -/

variable (t : Tables)

/-- Tables that do not contradict themselves. -/
structure Consistent : Prop where
  /-- A class is unlocked in one way only. -/
  unlocks : t.unlockable.Nodup
  /-- What a class produces is listed by rising level. -/
  grinds : ∀ j, ((t.grindsFor j).map (·.level)).Pairwise (· < ·)
  /-- A class lists an objective once. -/
  objectives : ∀ e ∈ t.objectives, (e.2.map (·.id)).Nodup

theorem contradiction?_eq_none : t.contradiction? = none ↔
    duplicateUnlock? [] t.unlocks = none ∧ unorderedGrind? [] t.grinds = none ∧
      ∀ e ∈ t.objectives, duplicateObjective? [] e.2 = none := by
  rw [contradiction?]
  cases duplicateUnlock? [] t.unlocks with
  | some j => simp
  | none =>
    cases unorderedGrind? [] t.grinds with
    | some g => simp
    | none => simp [List.findSome?_eq_none_iff]

theorem contradiction?_eq_none_iff_consistent : t.contradiction? = none ↔ t.Consistent := by
  have hunlocks : duplicateUnlock? [] t.unlocks = none ↔ t.unlockable.Nodup := by
    rw [duplicateUnlock?_eq, repeated?_eq_none, fresh_of_nothing, unlockable]
  have hgrinds : unorderedGrind? [] t.grinds = none ↔
      ∀ j, ((t.grindsFor j).map (·.level)).Pairwise (· < ·) := by
    simp only [unorderedGrind?_eq_none, List.find?_nil, rising_of_nothing, grindsFor]
  have hobjectives : (∀ e ∈ t.objectives, duplicateObjective? [] e.2 = none) ↔
      ∀ e ∈ t.objectives, (e.2.map (·.id)).Nodup := by
    simp only [duplicateObjective?_eq, repeated?_eq_none, fresh_of_nothing]
  rw [contradiction?_eq_none, hunlocks, hgrinds, hobjectives]
  exact ⟨fun ⟨h₁, h₂, h₃⟩ => ⟨h₁, h₂, h₃⟩, fun ⟨h₁, h₂, h₃⟩ => ⟨h₁, h₂, h₃⟩⟩

variable {t} in
theorem consistent_of_checked (h : t.checked = .ok t) : t.Consistent := by
  rw [← contradiction?_eq_none_iff_consistent]
  unfold checked at h
  split at h
  · cases h
  · assumption

/-- Tables are accepted as they are, exactly if they are consistent; if not, they are refused with a
reason. -/
theorem checked_iff_consistent : (t.checked = .ok t ↔ t.Consistent) ∧
    ((∃ reason, t.checked = .error (.invalidTables reason)) ↔ ¬ t.Consistent) := by
  rw [← contradiction?_eq_none_iff_consistent, checked]
  cases t.contradiction? with
  | none => simp
  | some reason => simp

/-! ### Refusal -/

/-- A reason that the tables bear out. -/
inductive Blames : String → Prop
  | unlock {j : Job} : 2 ≤ t.unlockable.count j → Blames ("duplicate unlock spec for " ++ j.title)
  | grind {last g : Grind} {front back : List Grind} :
    t.grindsFor g.job = front ++ last :: g :: back → g.level ≤ last.level →
    Blames ("grind thresholds for " ++ g.job.title ++ " must strictly increase ("
      ++ Number.text g.level.toNat ++ " after " ++ Number.text last.level.toNat ++ ")")
  | objective {j : Job} {os : List Objective} {id : ObjectiveId} : (j, os) ∈ t.objectives →
    2 ≤ (os.map (·.id)).count id →
    Blames ("objective " ++ Number.text id.toNat ++ " listed twice for " ++ j.title)

variable {t} in
/-- Tables are refused for a reason that names what contradicts what. -/
theorem blames_of_checked {e : Error} (h : t.checked = .error e) :
    ∃ reason, e = .invalidTables reason ∧ t.Blames reason := by
  have hreason : ∀ reason, t.contradiction? = some reason → t.Blames reason := by
    intro reason hc
    unfold contradiction? at hc
    split at hc
    · next j hj =>
      cases hc
      rw [duplicateUnlock?_eq] at hj
      exact .unlock (by simpa [unlockable] using count_of_repeated? hj)
    · next g last hg =>
      cases hc
      obtain ⟨g', front, back, hneighbours, rfl, hle⟩ := neighbours_of_unorderedGrind? hg
      exact .grind hneighbours hle
    · obtain ⟨⟨j, os⟩, hmem, hid⟩ := List.exists_of_findSome?_eq_some hc
      obtain ⟨id, hdup, rfl⟩ := Option.map_eq_some_iff.1 hid
      rw [duplicateObjective?_eq] at hdup
      exact .objective hmem (by simpa using count_of_repeated? hdup)
  unfold checked at h
  split at h
  · next reason hc =>
    cases h
    exact ⟨reason, rfl, hreason reason hc⟩
  · cases h

end Tables
end Progression
