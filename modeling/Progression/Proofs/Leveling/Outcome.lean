import Progression.Proofs.Choosing
import Progression.Proofs.Leveling.Ascent
import Progression.Scenario

/-!
What the outcome of leveling a class says is so. An outcome is either settled before the first
round, or the goal is reached, or the last round ends leveling; `Justifies` says what that round has
found and done for each of the outcomes it can end with. Whatever comes of it, nothing is handed
over and nobody is met before the class was seen to be active.
-/

namespace Progression

variable {σ : Type}

theorem Event.In.command {D : List String} {C : Command → Prop} {e : Event} (h : e.In D C)
    {c : Command} (hc : e.command? = some c) : C c := by
  cases e with
  | did => cases hc; exact h.2
  | asked => cases hc
  | ended => cases hc
  | began => cases hc
  | round => cases hc

theorem given_eq_nil_of_looks {es : List Entry} (h : ∀ e ∈ es, e.event.IsLook) : given es = [] := by
  refine List.filterMap_eq_nil_iff.2 ?_
  intro e he
  have hl := h e he
  cases hev : e.event with
  | asked => rfl
  | _ => rw [hev] at hl; exact hl.elim

/-- Before a class was seen to be active, commands are given at most that change the class. -/
def SwitchesFirst (j : Job) (es : List Entry) : Prop :=
  ∀ before e after c, es = before ++ e :: after → e.event.command? = some c →
    Setup.IsChange j c ∨ ∃ time, ⟨time, .asked .activeJob (some j)⟩ ∈ before

theorem switchesFirst_append {j : Job} {D : List String} {lead rest : List Entry}
    (hlead : ∀ e ∈ lead, e.event.In D (Setup.IsChange j))
    (hrest : rest = [] ∨ ∃ time, ⟨time, .asked .activeJob (some j)⟩ ∈ lead) :
    SwitchesFirst j (lead ++ rest) := by
  intro before e after c he hc
  rcases List.append_eq_append_iff.1 he with ⟨mid, rfl, h⟩ | ⟨mid, rfl, h⟩
  · -- The command belongs to the rest, behind the look.
    obtain rfl | ⟨time, hlook⟩ := hrest
    · simp at h
    · exact .inr ⟨time, List.mem_append_left _ hlook⟩
  · cases mid with
    | nil =>
      obtain rfl | ⟨time, hlook⟩ := hrest
      · cases h
      · exact .inr ⟨time, by simpa using hlook⟩
    | cons x mid =>
      cases h
      exact .inl ((hlead _ (by simp)).command hc)

namespace Plan

variable (p : Plan σ) (j : Job)

/-! ### The last round -/

/-- What a round has found and done if leveling ends with it. -/
inductive Justifies (r : LevelRound) (t : Session σ) : LevelingOutcome → Prop
  /-- Only looks were taken. No entry is reached, and each objective is ruled out. -/
  | noProgress : (∀ e ∈ r.entries, e.event.IsLook) →
      (∀ g ∈ p.tables.grindsFor j, r.level < g.level) →
      (∀ o ∈ p.tables.objectivesFor j, o.RuledOut r.level r.entries) →
      (p.host.Steady → ∀ o ∈ p.tables.objectivesFor j, ¬ o.Eligible (p.host.sees t) r.level) →
      Justifies r t (.noProgress r.level)
  /-- The last thing done was the order of the best entry, which was refused. -/
  | orderFailed {g} : Grind.IsBest r.level (p.tables.grindsFor j) g →
      EndsRefused [{
        item := g.item, amount := g.amount
        kind := if j ∈ Job.gatherers then "Gather" else j.title }] r.entries →
      Justifies r t (.orderFailed g.item g.amount)
  /-- The level that was read last is the one the round was begun at. -/
  | stalled : (reads j r.entries).getLast? = some r.level → Justifies r t (.stalled r.level)

variable {p j} {goal : UInt32} {s t : Session σ} {rs : List LevelRound} {last : List Entry}
  {outcome : LevelingOutcome}

theorem IsRound.justifies {r : LevelRound}
    (h : p.IsRound j r.level s r.entries (.ok (some outcome)) t) : p.Justifies j r t outcome := by
  cases h.ends with
  | idle hg hnone hbest =>
    obtain ⟨es, hg', hruled, hfree⟩ := Objective.ruledOut_of_firstEligible? hnone
    cases hg'.adds.unique h.works.adds
    refine .noProgress hg.looks (Tables.lt_of_bestGrind?_eq_none hbest) hruled fun hs => ?_
    rw [hg.sees hs]
    exact hfree hs
  | refused _ hr =>
    obtain ⟨g, hbest, rfl, hends⟩ := hr
    exact .orderFailed (Tables.isBest_of_bestGrind? hbest) hends
  | stalled _ hlast => exact .stalled hlast

theorem Justifies.glance {r : LevelRound} {u : Session σ} {es : List Entry}
    (h : p.Justifies j r t outcome) (hg : p.host.Glance t u es) : p.Justifies j r u outcome := by
  cases h with
  | noProgress hlooks hgrinds hruled hfree =>
    refine .noProgress hlooks hgrinds hruled fun hs => ?_
    rw [hg.sees hs]
    exact hfree hs
  | orderFailed hbest hends => exact .orderFailed hbest hends
  | stalled hlast => exact .stalled hlast

/-- The loop ends at a level that reaches the goal, or with its last round. -/
theorem Ascent.reached_or_justified {n : Nat} (h : p.Ascent j goal n s rs last (.ok outcome) t) :
    (∃ level time, outcome = .reached level ∧ goal ≤ level ∧
        last = [⟨time, .asked (.level j) level⟩]) ∨
      ∃ r, rs.getLast? = some r ∧ last = [] ∧ r.level < goal ∧ p.Justifies j r t outcome := by
  generalize hr : (Except.ok outcome : Except Halt LevelingOutcome) = result at h
  induction h with
  | calledOff => cases hr
  | exhausted => cases hr
  | @reached _ s _ level hgoal => cases hr; exact .inl ⟨level, s.now, rfl, hgoal, rfl⟩
  | stopped => cases hr
  | @ended _ _ r _ _ _ hb hround =>
    cases hr
    exact .inr ⟨r, rfl, rfl, hb.below, hround.justifies⟩
  | goesOn _ _ _ ih =>
    refine (ih hr).imp id ?_
    rintro ⟨r, hlast, hnil, hbelow, hj⟩
    exact ⟨r, by rw [List.getLast?_cons, hlast]; rfl, hnil, hbelow, hj⟩

/-! ### The class -/

variable (p j) in
/-- What the outcome of leveling a class says of its rounds, of all that was added, and of the
session it leaves. -/
structure TruthfulRun (s : Session σ) (rs : List LevelRound) (es : List Entry) (run : ClassRun)
    (t : Session σ) : Prop where
  startLevel : run.startLevel = p.host.sees s (.level j)
  iterations : run.iterations = rs.length
  notUnlocked : run.outcome = .notUnlocked ↔ run.startLevel = 0
  locked : run.startLevel = 0 → given es = []
  /-- A class that has reached its goal is left alone. -/
  settled : run.startLevel ≠ 0 → p.goals.target j ≤ run.startLevel →
    run.outcome = .reached run.startLevel ∧ run.iterations = 0 ∧ given es = []
  switchFailed : run.outcome = .switchFailed →
    run.iterations = 0 ∧ ∀ c ∈ given es, Setup.IsChange j c
  reached : ∀ level, run.outcome = .reached level →
    p.goals.target j ≤ level ∧ ∃ time, ⟨time, .asked (.level j) level⟩ ∈ es
  noProgress : ∀ level, run.outcome = .noProgress level → level < p.goals.target j ∧
    (∀ g ∈ p.tables.grindsFor j, level < g.level) ∧
    (∃ r, rs.getLast? = some r ∧ r.level = level ∧ (∀ e ∈ r.entries, e.event.IsLook) ∧
      ∀ o ∈ p.tables.objectivesFor j, o.RuledOut level r.entries) ∧
    (p.host.Steady → ∀ o ∈ p.tables.objectivesFor j, ¬ o.Eligible (p.host.sees t) level)
  /-- After the order that is refused, only looks are taken. -/
  orderFailed : ∀ item amount, run.outcome = .orderFailed item amount →
    ∃ r g front after, rs.getLast? = some r ∧ r.level < p.goals.target j ∧
      Grind.IsBest r.level (p.tables.grindsFor j) g ∧ g.item = item ∧ g.amount = amount ∧
      es = front ++ after ∧
      EndsRefused [{
        item, amount, kind := if j ∈ Job.gatherers then "Gather" else j.title }] front ∧
      ∀ e ∈ after, e.event.IsLook
  stalled : ∀ level, run.outcome = .stalled level → level < p.goals.target j ∧
    ∃ r, rs.getLast? = some r ∧ r.level = level ∧ (reads j r.entries).getLast? = some level

section Runs

variable {phase : Phase} {start endLevel : UInt32} {u : Session σ} {lead : List Entry}

theorem truthfulRun_of_settled (hg : p.host.Glance s t [⟨s.now, .asked (.level j) start⟩])
    (hseen : start = p.host.sees s (.level j))
    (h : start = 0 ∧ outcome = .notUnlocked ∨
      start ≠ 0 ∧ p.goals.target j ≤ start ∧ outcome = .reached start) :
    p.TruthfulRun j s [] [⟨s.now, .asked (.level j) start⟩] ⟨j, phase, start, start, 0, outcome⟩
      t := by
  have hgiven : given [⟨s.now, .asked (.level j) start⟩] = [] := given_eq_nil_of_looks hg.looks
  obtain ⟨hzero, rfl⟩ | ⟨hne, hgoal, rfl⟩ := h
  · exact {
      startLevel := hseen
      iterations := rfl
      notUnlocked := ⟨fun _ => hzero, fun _ => rfl⟩
      locked := fun _ => hgiven
      settled := fun hne _ => absurd hzero hne
      switchFailed := nofun
      reached := nofun
      noProgress := nofun
      orderFailed := nofun
      stalled := nofun }
  · exact {
      startLevel := hseen
      iterations := rfl
      notUnlocked := ⟨nofun, fun hzero => absurd hzero hne⟩
      locked := fun _ => hgiven
      settled := fun _ _ => ⟨rfl, rfl, hgiven⟩
      switchFailed := nofun
      reached := by
        rintro _ ⟨⟩
        exact ⟨hgoal, s.now, .head _⟩
      noProgress := nofun
      orderFailed := nofun
      stalled := nofun }

theorem truthfulRun_of_hindered (hp : p.Prepares j s start lead (.ok false) t)
    (hseen : start = p.host.sees s (.level j)) :
    p.TruthfulRun j s [] lead ⟨j, phase, start, start, 0, .switchFailed⟩ t where
  startLevel := hseen
  iterations := rfl
  notUnlocked := ⟨nofun, fun hzero => absurd hzero hp.unlocked⟩
  locked hzero := absurd hzero hp.unlocked
  settled _ hgoal := absurd hp.below (UInt32.not_lt.2 hgoal)
  switchFailed _ := by
    refine ⟨rfl, fun c hc => ?_⟩
    obtain ⟨e, he, hc⟩ := List.mem_filterMap.1 hc
    exact (hp.directed.within e he).command hc
  reached := nofun
  noProgress := nofun
  orderFailed := nofun
  stalled := nofun

theorem truthfulRun_of_reached {level : UInt32} {time : Nat} {es : List Entry}
    (hp : p.Prepares j s start lead (.ok true) u) (hseen : start = p.host.sees s (.level j))
    (hgoal : p.goals.target j ≤ level) (hread : ⟨time, .asked (.level j) level⟩ ∈ es) :
    p.TruthfulRun j s rs es ⟨j, phase, start, endLevel, rs.length, .reached level⟩ t where
  startLevel := hseen
  iterations := rfl
  notUnlocked := ⟨nofun, fun hzero => absurd hzero hp.unlocked⟩
  locked hzero := absurd hzero hp.unlocked
  settled _ hgoal := absurd hp.below (UInt32.not_lt.2 hgoal)
  switchFailed := nofun
  reached := by
    rintro _ ⟨⟩
    exact ⟨hgoal, time, hread⟩
  noProgress := nofun
  orderFailed := nofun
  stalled := nofun

theorem truthfulRun_of_justified {r : LevelRound} {front after : List Entry}
    (hp : p.Prepares j s start lead (.ok true) u) (hseen : start = p.host.sees s (.level j))
    (hr : rs.getLast? = some r) (hbelow : r.level < p.goals.target j)
    (hj : p.Justifies j r t outcome) (hafter : ∀ e ∈ after, e.event.IsLook) :
    p.TruthfulRun j s rs (front ++ r.entries ++ after)
      ⟨j, phase, start, endLevel, rs.length, outcome⟩ t where
  startLevel := hseen
  iterations := rfl
  notUnlocked := by
    refine ⟨?_, fun hzero => absurd hzero hp.unlocked⟩
    rintro ⟨⟩
    cases hj
  locked hzero := absurd hzero hp.unlocked
  settled _ hgoal := absurd hp.below (UInt32.not_lt.2 hgoal)
  switchFailed := by
    rintro ⟨⟩
    cases hj
  reached := by
    rintro _ ⟨⟩
    cases hj
  noProgress := by
    rintro _ ⟨⟩
    cases hj with
    | noProgress hlooks hgrinds hruled hfree =>
      exact ⟨hbelow, hgrinds, ⟨r, hr, rfl, hlooks, hruled⟩, hfree⟩
  orderFailed := by
    rintro _ _ ⟨⟩
    cases hj with
    | @orderFailed g hbest hends =>
      exact ⟨r, g, _, after, hr, hbelow, hbest, rfl, rfl, rfl, hends.after front, hafter⟩
  stalled := by
    rintro _ ⟨⟩
    cases hj with
    | stalled hlast => exact ⟨hbelow, r, hr, rfl, hlast⟩

end Runs

theorem Climb.truthfulRun {phase : Phase} {start : UInt32} {lead : List Entry} {run : ClassRun}
    (h : p.Climb j phase s start lead rs last (.ok run) t)
    (hseen : start = p.host.sees s (.level j)) :
    p.TruthfulRun j s rs (lead ++ rs.flatMap (·.all j) ++ last) run t := by
  cases h with
  | settled hg h => exact truthfulRun_of_settled hg hseen h
  | hindered hp => simpa using truthfulRun_of_hindered hp hseen
  | ended hp ha _ hg =>
    obtain ⟨level, time, rfl, hgoal, rfl⟩ | ⟨r, hr, rfl, hbelow, hj⟩ := ha.reached_or_justified
    · exact truthfulRun_of_reached hp hseen hgoal (List.mem_append_right _
        (List.mem_cons_self : (⟨time, .asked (.level j) level⟩ : Entry) ∈ _))
    · obtain ⟨rs, rfl⟩ := List.getLast?_eq_some_iff.1 hr
      have hes (look : Entry) : lead ++ (rs ++ [r]).flatMap (·.all j) ++ ([] ++ [look]) =
          lead ++ rs.flatMap (·.all j) ++
            [⟨r.time, .asked (.level j) r.level⟩, ⟨r.time, .round j r.level⟩] ++ r.entries ++
            [look] := by simp [LevelRound.all]
      rw [hes]
      exact truthfulRun_of_justified hp hseen hr hbelow (hj.glance hg) hg.looks

theorem Climb.switchesFirst {phase : Phase} {start : UInt32} {lead : List Entry}
    {result : Except Halt ClassRun} (h : p.Climb j phase s start lead rs last result t) :
    SwitchesFirst j (lead ++ rs.flatMap (·.all j) ++ last) := by
  rw [List.append_assoc]
  cases h with
  | settled hg =>
    exact switchesFirst_append (D := []) (fun e he => Event.in_of_isLook (hg.looks e he)) (.inl rfl)
  | hindered hp => exact switchesFirst_append hp.directed.within (.inl rfl)
  | broken hp => exact switchesFirst_append hp.directed.within (.inl rfl)
  | stopped hp => exact switchesFirst_append hp.directed.within (.inr (hp.confirmed rfl))
  | ended hp => exact switchesFirst_append hp.directed.within (.inr (hp.confirmed rfl))

variable (p j) in
/-- **What the leveling of a class reports is so**: its outcome is justified by its rounds and by
what was looked at, and whatever comes of it, the class is made the active one first. -/
theorem levelClass_is_truthful {phase : Phase} {es : List Entry} {result : Except Halt ClassRun}
    (hgo : (p.levelClass phase j).go s = (result, t)) (hadds : s.Adds t es) :
    SwitchesFirst j es ∧ ∀ run, result = .ok run → ∃ lead rs last,
      es = lead ++ rs.flatMap (·.all j) ++ last ∧ rounds es = rs.map (·.level) ∧
        p.TruthfulRun j s rs es run t := by
  obtain ⟨start, result', t', lead, rs, last, hgo', hseen, hclimb⟩ :=
    p.climb_of_levelClass j phase s
  rw [hgo] at hgo'
  cases hgo'
  cases hadds.unique hclimb.works.adds
  refine ⟨hclimb.switchesFirst, ?_⟩
  rintro run rfl
  exact ⟨lead, rs, last, rfl, hclimb.rounds_eq, hclimb.truthfulRun hseen⟩

/-- A miner who rises from 5 to 6 by an objective, and whose order is refused then: it is the order
of the entry that applies at 5. -/
theorem levelClass_is_truthful_of_refusal :
    let p : Plan Scenario := {
      host := Scenario.host, timing := {}, rounds := 50
      tables := {
        grinds := [⟨.miner, 1, 7, 4⟩, ⟨.miner, 6, 8, 2⟩, ⟨.miner, 20, 9, 1⟩]
        objectives := [(.miner, [{
          id := 9000, level := 1, actor := 500, zone := 129, place := .origin }])] }
      goals := { gatherers := 7 } }
    let s : Session Scenario := { world := {
      levels := [(.miner, 5)], ordersSucceed := false
      reactions := [
        ⟨.interact 500, [.grant 9000, .opens .journalResult], none⟩,
        ⟨.advance .journalResult, [.complete 9000, .level .miner 6], none⟩] } }
    let t := ((p.levelClass .levelGatherers .miner).go s).2
    SwitchesFirst .miner t.history.reverse ∧ ∃ lead rs last,
      t.history.reverse = lead ++ rs.flatMap (·.all .miner) ++ last ∧
        rounds t.history.reverse = rs.map (·.level) ∧
          p.TruthfulRun .miner s rs t.history.reverse
            ⟨.miner, .levelGatherers, 5, 6, 1, .orderFailed 7 4⟩ t := by
  intro p s t
  have hresult : ((p.levelClass .levelGatherers .miner).go s).1 =
      .ok ⟨.miner, .levelGatherers, 5, 6, 1, .orderFailed 7 4⟩ := by decide +kernel
  have hadds (t : Session Scenario) : s.Adds t t.history.reverse := by simp [Session.Adds, s]
  have h := p.levelClass_is_truthful .miner (Act.go_eq_of_fst hresult) (hadds t)
  exact ⟨h.1, h.2 _ rfl⟩

end Plan
end Progression
