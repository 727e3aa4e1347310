import Progression.Proofs.Leveling.Ascent
import Progression.Scenario

/-!
What is published of a class when its leveling ends. A round publishes the levels after all that it
does, so what is published is up to date at the end of every round but two: one in which the order
of an entry is refused, and one for which nothing is found to do. Both are left before the levels
are read again. After the second kind the round before it still counts, as nothing was done since.
-/

namespace Progression

variable {σ : Type}

/-- The outcome of an order that was refused. -/
def LevelingOutcome.IsRefused : LevelingOutcome → Prop
  | .orderFailed .. => True
  | _ => False

/-- The outcome of a round for which nothing is found to do. -/
def LevelingOutcome.IsIdle : LevelingOutcome → Prop
  | .noProgress _ => True
  | _ => False

namespace Plan

variable {p : Plan σ} {j : Job} {goal : UInt32} {n : Nat} {s t u : Session σ}
  {rs : List LevelRound} {last : List Entry} {outcome : LevelingOutcome}

/-! ### Rounds -/

theorem IsRefusal.isRefused {level : UInt32} {es : List Entry}
    (h : p.IsRefusal j level es outcome) : outcome.IsRefused := by
  obtain ⟨g, -, rfl, -⟩ := h
  trivial

/-- A round with which leveling ends, unless its order is refused or nothing is found to do. -/
theorem IsRound.upToDate {level : UInt32} {es : List Entry}
    (h : p.IsRound j level s es (.ok (some outcome)) t) (hrefused : ¬ outcome.IsRefused)
    (hidle : outcome.IsIdle → p.host.UpToDate j s) : p.host.UpToDate j t := by
  cases h.ends with
  | idle hg => exact (hidle trivial).glance hg
  | refused _ hr => exact absurd hr.isRefused hrefused
  | stalled ht => exact ht

theorem IsRound.upToDate_of_none {level : UInt32} {es : List Entry}
    (h : p.IsRound j level s es (.ok none) t) : p.host.UpToDate j t := by
  cases h.ends with
  | moved ht => exact ht

/-- A round that is left early publishes nothing. -/
theorem IsRound.retains {level : UInt32} {es : List Entry}
    (h : p.IsRound j level s es (.ok (some outcome)) t) (ho : outcome.IsRefused ∨ outcome.IsIdle) :
    s.Retains t := by
  cases h.ends with
  | idle hg => exact hg.keeps.retains
  | refused hr => exact hr
  | stalled => exact (ho.elim id id).elim

/-! ### The loop -/

/-- What is up to date before the loop is so after it, unless an order is refused. -/
theorem Ascent.upToDate (h : p.Ascent j goal n s rs last (.ok outcome) t)
    (hrefused : ¬ outcome.IsRefused) (hs : p.host.UpToDate j s) : p.host.UpToDate j t := by
  generalize hr : (Except.ok outcome : Except Halt LevelingOutcome) = result at h
  induction h with
  | calledOff => cases hr
  | exhausted => cases hr
  | reached _ hg => exact hs.glance hg
  | stopped => cases hr
  | ended hb hround => cases hr; exact hround.upToDate hrefused fun _ => hb.upToDate hs
  | goesOn _ hround _ ih => exact ih hround.upToDate_of_none hr

/-- The loop makes up to date what is published, unless an order is refused or nothing is found to do
in the first round. -/
theorem Ascent.upToDate_of_rounds (h : p.Ascent j goal n s rs last (.ok outcome) t)
    (hrefused : ¬ outcome.IsRefused) (hrs : 0 < rs.length)
    (hidle : outcome.IsIdle → 1 < rs.length) : p.host.UpToDate j t := by
  cases h with
  | reached => cases hrs
  | ended _ hround =>
    refine hround.upToDate hrefused ?_
    intro hi
    exact absurd (hidle hi) (by simp)
  | goesOn _ hround ha => exact ha.upToDate hrefused hround.upToDate_of_none

/-- What is published when an order is refused is the level at which the last round was begun. -/
theorem Ascent.published_of_refused (h : p.Ascent j goal n s rs last (.ok outcome) t)
    (hh : p.host.Steady) (hrefused : outcome.IsRefused) (hs : p.host.UpToDate j s) :
    ∃ r, rs.getLast? = some r ∧ t.Published j r.level := by
  generalize hr : (Except.ok outcome : Except Halt LevelingOutcome) = result at h
  induction h with
  | calledOff => cases hr
  | exhausted => cases hr
  | reached => cases hr; exact hrefused.elim
  | stopped => cases hr
  | @ended _ _ r _ _ _ hb hround =>
    cases hr
    refine ⟨r, rfl, ?_⟩
    have hp := hs.published hh
    rw [← hb.seen] at hp
    exact hp.of_retains (hb.keeps.retains.trans (hround.retains (.inl hrefused)))
  | goesOn _ hround _ ih =>
    obtain ⟨r, hlast, hp⟩ := ih hround.upToDate_of_none hr
    exact ⟨r, by rw [List.getLast?_cons, hlast]; rfl, hp⟩

/-! ### The class -/

variable (p j) in
/-- What is published of a class when its leveling ends after a round at least. -/
structure Publishes (s : Session σ) (es : List Entry) (run : ClassRun) (t : Session σ) : Prop where
  /-- Unless the last round is left early, or nothing is found to do in the first one. -/
  current : ¬ run.outcome.IsRefused → (run.outcome.IsIdle → 1 < run.iterations) →
    p.host.UpToDate j t ∧ (p.host.Steady → t.Published j run.endLevel)
  /-- When an order is refused, the level at which the last round was begun. -/
  refused : run.outcome.IsRefused → 1 < run.iterations → p.host.Steady →
    ∃ level, (rounds es).getLast? = some level ∧ t.Published j level
  /-- When the first round is left early, nothing. -/
  untouched : run.outcome.IsRefused ∨ run.outcome.IsIdle → run.iterations = 1 → s.Retains t

theorem Ascent.retains (h : p.Ascent j goal n s rs last (.ok outcome) t) (hrs : rs.length = 1)
    (ho : outcome.IsRefused ∨ outcome.IsIdle) : s.Retains t := by
  cases h with
  | reached => cases hrs
  | ended hb hround => exact hb.keeps.retains.trans (hround.retains ho)
  | goesOn _ hround ha =>
    cases ha with
    | reached => exact (ho.elim id id).elim
    | ended => cases hrs
    | goesOn => cases hrs

/-- The loop publishes the level at which its last round was begun, if there was one before it. -/
theorem Ascent.published_of_rounds (h : p.Ascent j goal n s rs last (.ok outcome) t)
    (hh : p.host.Steady) (hrefused : outcome.IsRefused) (hrs : 1 < rs.length) :
    ∃ r, rs.getLast? = some r ∧ t.Published j r.level := by
  cases h with
  | reached => cases hrs
  | ended => exact absurd hrs (by simp)
  | goesOn _ hround ha =>
    obtain ⟨r, hlast, hp⟩ := ha.published_of_refused hh hrefused hround.upToDate_of_none
    exact ⟨r, by rw [List.getLast?_cons, hlast]; rfl, hp⟩

/-- The level that is published of a class when its leveling ends after a round at least. It is the
one the class ends at, unless the last round is left before the levels are read again. -/
theorem levelClass_publishes {phase : Phase} {es : List Entry} {run : ClassRun}
    (hgo : (p.levelClass phase j).go s = (.ok run, t)) (hadds : s.Adds t es)
    (hrun : 0 < run.iterations) : p.Publishes j s es run t := by
  obtain ⟨start, result, t', lead, rs, last, hgo', -, hclimb⟩ := p.climb_of_levelClass j phase s
  rw [hgo] at hgo'
  cases hgo'
  cases hadds.unique hclimb.works.adds
  have hmarks := hclimb.rounds_eq
  cases hclimb with
  | settled => cases hrun
  | hindered => cases hrun
  | ended hp ha hend hg =>
    refine ⟨?_, ?_, ?_⟩
    · intro hrefused hidle
      have hup := (ha.upToDate_of_rounds hrefused hrun hidle).glance hg
      refine ⟨hup, fun hh => ?_⟩
      have hpublished := hup.published hh
      rwa [hg.sees hh, ← hend] at hpublished
    · intro hrefused hrounds hh
      obtain ⟨r, hlast, hpublished⟩ := ha.published_of_rounds hh hrefused hrounds
      refine ⟨r.level, ?_, hpublished.of_retains hg.keeps.retains⟩
      rw [hmarks, List.getLast?_map, hlast]
      rfl
    · intro ho hone
      exact (hp.directed.retains.trans (ha.retains hone ho)).trans hg.keeps.retains

/-- A miner who is leveled from 5 to 7 in two rounds. -/
theorem levelClass_publishes_of_miner :
    let p : Plan Scenario := {
      host := Scenario.host, timing := {}, rounds := 50
      tables := { grinds := [⟨.miner, 1, 7, 4⟩] }
      goals := { gatherers := 7 } }
    let s : Session Scenario := { world := { levels := [(.miner, 5)], gain := 1 } }
    let run : ClassRun := ⟨.miner, .levelGatherers, 5, 7, 2, .reached 7⟩
    let t := ((p.levelClass .levelGatherers .miner).go s).2
    p.host.Steady ∧ 0 < run.iterations ∧ p.Publishes .miner s t.history.reverse run t := by
  intro p s run t
  have hresult : ((p.levelClass .levelGatherers .miner).go s).1 = .ok run := by decide +kernel
  have hadds (t : Session Scenario) : s.Adds t t.history.reverse := by simp [Session.Adds, s]
  have hrun : 0 < run.iterations := by decide
  exact ⟨Scenario.steady_host, hrun,
    levelClass_publishes (Act.go_eq_of_fst hresult) (hadds t) hrun⟩

/-- A miner who rises from 5 to 6 by an objective, and whose order is refused right after it: the
level that is published is still the one before. -/
theorem levelClass_publishes_stale_level :
    let p : Plan Scenario := {
      host := Scenario.host, timing := {}, rounds := 50
      tables := {
        grinds := [⟨.miner, 1, 7, 4⟩]
        objectives := [(.miner, [{
          id := 9000, level := 1, actor := 500, zone := 129, place := .origin }])] }
      goals := { gatherers := 7 } }
    let s : Session Scenario := { world := {
      levels := [(.miner, 5)], ordersSucceed := false
      reactions := [
        ⟨.interact 500, [.grant 9000, .opens .journalResult], none⟩,
        ⟨.advance .journalResult, [.complete 9000, .level .miner 6], none⟩] } }
    let s' := (p.refreshTargets.go s).2
    let t := ((p.levelClass .levelGatherers .miner).go s').2
    ((p.levelClass .levelGatherers .miner).go s').1 =
        .ok ⟨.miner, .levelGatherers, 5, 6, 1, .orderFailed 7 4⟩ ∧
      t.Published .miner 5 ∧ ¬ t.Published .miner 6 := by
  intro p s s' t
  have htargets : (t.targets.find? (·.job = .miner)).map (·.current) = some 5 := by decide +kernel
  have hlevels : t.status.snapshot.levels.lookup .miner = some 5 := by decide +kernel
  refine ⟨by decide +kernel, ⟨htargets, hlevels⟩, ?_⟩
  intro h
  have hsix := h.targets
  rw [htargets] at hsix
  exact absurd hsix (by decide)

end Plan
end Progression
