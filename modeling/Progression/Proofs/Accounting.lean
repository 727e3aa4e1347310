import Progression.Proofs.Consistency
import Progression.Proofs.Phases
import Progression.Scenario

/-!
The account of a whole run. However a run ends, what it does while it unlocks classes comes before
what it does while it levels them, and no class that is skipped is ever asked for. It stops only when
it is called off, when a stage of an unlock fails, or when something does not come to its end; and
when it returns, its summary has an entry for every phase and for every class that is not skipped,
in their order, and for each class that was unlocked on the way.
-/

namespace Progression

variable {σ : Type}

/-! ### Valid tables -/

namespace Tables

/-- Tables that do not contradict themselves unlock a class in one way only. -/
theorem nodup_unlockable {t : Tables} (h : t.checked = .ok t) : t.unlockable.Nodup :=
  (consistent_of_checked h).unlocks

end Tables

/-! ### Changes of class -/

theorem Interaction.not_isPart_changeJob {kind : Interaction} {r : Interaction.Request} {j : Job} :
    ¬ kind.IsPart r (.changeJob j) := by
  rintro (h | h | h | ⟨w, -, h⟩)
  · cases h
  · cases h
  · cases h
  · cases h

theorem Setup.eq_of_isChange {j k : Job} (h : IsChange k (.changeJob j)) : j = k := by
  rcases h with h | h | h <;> cases h
  rfl

/-- The class an unlock asks for is its own. -/
theorem Setup.eq_of_isUnlocking {p : Setup σ} {u : Unlock} {j : Job}
    (h : p.IsUnlocking u (.changeJob j)) : j = u.job := by
  obtain ⟨stage, hstage⟩ := h
  unfold Belongs at hstage
  cases hm : p.meeting u stage with
  | some m =>
    rw [hm] at hstage
    exact absurd hstage Interaction.not_isPart_changeJob
  | none =>
    rw [hm] at hstage
    exact eq_of_isChange hstage

namespace Plan

variable (p : Plan σ)

/-- The class that the leveling of a class asks for is that class. -/
theorem eq_of_isLeveling {j k : Job} (h : p.IsLeveling k (.changeJob j)) : j = k := by
  obtain h | ⟨o, -, ⟨orders, -, h⟩ | ⟨kind, h⟩⟩ | ⟨level, orders, -, h⟩ := h
  · exact Setup.eq_of_isChange h
  · cases h
  · exact absurd h Interaction.not_isPart_changeJob
  · cases h

theorem not_isSkipped_of_unlocksOne {j : Job} (h : p.UnlocksOne (.changeJob j)) :
    p.goals.isSkipped j = false := by
  obtain ⟨u, -, hskip, hu⟩ := h
  rw [Setup.eq_of_isUnlocking hu]
  exact hskip

theorem not_isSkipped_of_levelsOne {j : Job} (h : p.LevelsOne (.changeJob j)) :
    p.goals.isSkipped j = false := by
  obtain ⟨k, hskip, hk⟩ := h
  rw [p.eq_of_isLeveling hk]
  exact hskip

/-! ### A run -/

/-- What is in the summary of a run that returns. -/
structure Settles (s : Session σ) (es : List Entry) (summary : Summary) : Prop where
  phases : summary.phases = [(.unlockAll, .completed), (.levelGatherers, .completed),
    (.levelCrafters, .completed), (.levelToCap, .unimplemented)]
  /-- Every class that is not skipped, once, with the phase it was leveled in. -/
  classes : summary.classes.map (fun run => (run.job, run.phase)) =
    p.due .levelGatherers Job.gatherers ++ p.due .levelCrafters Job.crafters
  /-- Every class that was unlocked was seen to be locked before. -/
  unlocked : ∃ runs : List (UnlockRun σ), summary.unlocked = runs.map (·.report) ∧
    (runs.map (·.unlock)).Sublist p.tables.unlocks ∧ ∀ run ∈ runs, run.Sound p s es
  order : (summary.unlocked.map (·.job)).Sublist
    (p.tables.unlockable.filter fun j => !p.goals.isSkipped j)
  distinct : (summary.unlocked.map (·.job)).Nodup
  finished : summary.finished = true

/-- The account of a run. -/
structure Accounts (s : Session σ) (es : List Entry) (result : Except Halt Summary)
    (t : Session σ) : Prop where
  halts : ∀ e, result = .error e → p.RunHalts t e
  /-- What unlocks classes comes before what levels them. -/
  apart : ∃ unlocking leveling, es = unlocking ++ leveling ∧
    (∀ e ∈ unlocking, e.event.In ["Unlocking"] p.UnlocksOne) ∧
    ∀ e ∈ leveling, e.event.In ["Leveling", "Objective", "Grinding"] p.LevelsOne
  /-- A class that is skipped is never asked for. -/
  spares : ∀ e ∈ es, ∀ j, e.event.command? = some (.changeJob j) → p.goals.isSkipped j = false
  returns : ∀ summary, result = .ok summary → p.Settles s es summary

/-- The first part of a run, which ends when the classes are unlocked. -/
def opening (id : String) : Act σ Unit := do
  modify fun s => { s with summary := {}, status := s.status.setRun id }
  p.refreshTargets
  p.closePhase .unlockAll

/-- The rest of it. -/
def closing : Act σ Summary := do
  p.runPhases [.levelGatherers, .levelCrafters, .levelToCap]
  modify fun s => { s with summary := { s.summary with finished := true } }
  Act.publishDirective "Done" ""
  return (← get).summary

theorem run_eq (id : String) : p.run id = p.opening id >>= fun _ => p.closing := by
  have hphases : p.runPhases Phase.all = p.closePhase .unlockAll >>= fun _ =>
      p.runPhases [.levelGatherers, .levelCrafters, .levelToCap] := by
    rw [runPhases_eq, runPhases_eq]
    rfl
  unfold run opening closing
  simp only [hphases, bind_assoc]

theorem directs_opening (id : String) : (p.opening id).Directs ["Unlocking"] p.UnlocksOne := by
  refine Act.Directs.bind (Act.directs_modify _ fun _ => rfl) fun _ => ?_
  exact p.directs_refreshTargets.bind fun _ => p.directs_unlockAll

theorem directs_closing :
    p.closing.Directs ["Leveling", "Objective", "Grinding"] p.LevelsOne := by
  have hphases : (p.runPhases [.levelGatherers, .levelCrafters, .levelToCap]).Directs
      ["Leveling", "Objective", "Grinding"] p.LevelsOne := by
    rw [runPhases_eq]
    refine Act.Directs.each ?_
    intro phase hphase
    refine p.directs_leveling ?_
    rintro rfl
    simp at hphase
  refine hphases.bind fun _ => Act.Directs.bind (Act.directs_modify _ fun _ => rfl) fun _ => ?_
  refine (Act.directs_publishDirective _ _).bind fun _ => ?_
  exact Act.directs_of_silent (fun s => (rfl : _ = (Except.ok s.summary, s))) fun _ => rfl

/-- The classes of the unlocks that were carried out are in the order of the table, and distinct. -/
theorem jobs_of_runs {s : Session σ} {es : List Entry} {runs : List (UnlockRun σ)}
    (ho : (runs.map (·.unlock)).Sublist p.tables.unlocks) (hs : ∀ run ∈ runs, run.Sound p s es) :
    ((runs.map (·.report)).map (·.job)).Sublist
      (p.tables.unlockable.filter fun j => !p.goals.isSkipped j) := by
  have hjobs : (runs.map (·.report)).map (·.job) = (runs.map (·.unlock)).map (·.job) := by
    rw [List.map_map, List.map_map]
    refine List.map_congr_left fun run hrun => ?_
    exact p.job_of_unlock _ (hs run hrun).works
  have hwanted : ∀ j ∈ (runs.map (·.unlock)).map (·.job), (!p.goals.isSkipped j) = true := by
    intro j hj
    rw [List.map_map] at hj
    obtain ⟨run, hrun, rfl⟩ := List.mem_map.1 hj
    simpa using (hs run hrun).wanted
  rw [hjobs, ← List.filter_eq_self.2 hwanted]
  exact (ho.map _).filter _

theorem settles_of_run (hvalid : p.tables.checked = .ok p.tables) {id : String} {s t : Session σ}
    {es : List Entry} {summary : Summary} (hgo : (p.run id).go s = (.ok summary, t))
    (hadds : s.Adds t es) : p.Settles s es summary := by
  obtain ⟨_, u, hu, hgo⟩ := Act.go_bind_eq_ok.1 hgo
  cases hu
  obtain ⟨_, v, hv, hgo⟩ := Act.go_bind_eq_ok.1 hgo
  obtain ⟨_, w, hw, hgo⟩ := Act.go_bind_eq_ok.1 hgo
  cases hgo
  obtain ⟨fs, hfs⟩ := sumsUp_refreshTargets.quiet_bind
    (fun _ => p.sumsUp_runPhases Phase.all) _ _ w (Act.go_bind_eq_ok.2 ⟨_, v, hv, hw⟩)
  obtain rfl : es = fs := hadds.unique hfs.adds
  obtain ⟨runs, hreports, horder, hsound⟩ := hfs.unlocked
  obtain ⟨classes, hclasses, hnames⟩ := hfs.classes
  have hunlocks : Phase.all.flatMap p.unlocksOf = p.tables.unlocks := by
    simp [Phase.all, unlocksOf]
  have hdue : (Phase.all.flatMap fun phase => p.due phase (classesOf phase)) =
      p.due .levelGatherers Job.gatherers ++ p.due .levelCrafters Job.crafters := by
    simp [Phase.all, classesOf, due]
  rw [hunlocks] at horder
  replace hreports : w.summary.unlocked = runs.map (·.report) := hreports
  replace hclasses : w.summary.classes = classes := hclasses
  -- The run is begun with an empty summary, and with the history it finds.
  replace hsound : ∀ run ∈ runs, run.Sound p s es := fun run hrun =>
    { hsound run hrun with begun := (hsound run hrun).begun }
  have hjobs := p.jobs_of_runs horder hsound
  rw [← hreports] at hjobs
  refine {
    phases := hfs.phases
    classes := ?_
    unlocked := ⟨runs, hreports, horder, hsound⟩
    order := hjobs
    distinct := hjobs.nodup ((Tables.nodup_unlockable hvalid).filter _)
    finished := rfl }
  show w.summary.classes.map _ = _
  rw [hclasses, hnames, hdue]

/-- The account of a run with tables that do not contradict themselves. -/
theorem run_accounts (hvalid : p.tables.checked = .ok p.tables) {id : String} {s t : Session σ}
    {es : List Entry} {result : Except Halt Summary} (hgo : (p.run id).go s = (result, t))
    (hadds : s.Adds t es) : p.Accounts s es result t := by
  obtain ⟨us, ls, hparts, hus, hls⟩ := (p.directs_opening id).then (fun _ => p.directs_closing) s
  rw [← run_eq, hgo] at hparts
  obtain rfl := hadds.unique hparts
  refine ⟨?_, ⟨us, ls, rfl, hus, hls⟩, ?_, ?_⟩
  · rintro e rfl
    exact p.stopsWith_run id s t e hgo
  · intro e he j hj
    cases hev : e.event with
    | did c directive detail =>
      rw [hev] at hj
      cases hj
      obtain he | he := List.mem_append.1 he
      · have hin := hus e he
        rw [hev] at hin
        exact p.not_isSkipped_of_unlocksOne hin.2
      · have hin := hls e he
        rw [hev] at hin
        exact p.not_isSkipped_of_levelsOne hin.2
    | _ => rw [hev] at hj; cases hj
  · rintro summary rfl
    exact p.settles_of_run hvalid hgo hadds

/-- A run that unlocks a miner and levels him, skips the botanist, and finds the fisher and the
weaver locked. -/
theorem run_accounts_of_miner :
    let p : Plan Scenario := {
      host := Scenario.host, timing := {}, rounds := 100
      tables := {
        unlocks := [⟨.botanist, 129, 0, 66, 12, .origin, 13, .origin⟩,
          ⟨.miner, 129, 0, 65, 10, .origin, 11, .origin⟩]
        grinds := [⟨.miner, 1, 7, 4⟩] }
      goals := { gatherers := 3, skipped := [.botanist, .carpenter, .blacksmith, .armorer,
        .goldsmith, .leatherworker, .alchemist, .culinarian] } }
    let s : Session Scenario := { world := {
      gain := 1
      reactions := [
        ⟨.interact 10, [.grant 65], none⟩,
        ⟨.interact 11, [.complete 65, .level .miner 1], none⟩] } }
    let summary : Summary := {
      phases := [(.unlockAll, .completed), (.levelGatherers, .completed),
        (.levelCrafters, .completed), (.levelToCap, .unimplemented)]
      unlocked := [⟨.miner, [.acquire, .deliver, .switch], 1⟩]
      classes := [⟨.miner, .levelGatherers, 1, 3, 2, .reached 3⟩,
        ⟨.fisher, .levelGatherers, 0, 0, 0, .notUnlocked⟩,
        ⟨.weaver, .levelCrafters, 0, 0, 0, .notUnlocked⟩]
      finished := true }
    let t := ((p.run "1").go s).2
    p.tables.checked = .ok p.tables ∧ p.Accounts s t.history.reverse (.ok summary) t := by
  intro p s summary t
  have hvalid : p.tables.checked = .ok p.tables := by decide
  have hresult : ((p.run "1").go s).1 = .ok summary := by decide +kernel
  have hadds (t : Session Scenario) : s.Adds t t.history.reverse := by simp [Session.Adds, s]
  have hgo : (p.run "1").go s = (.ok summary, t) := Act.go_eq_of_fst hresult
  exact ⟨hvalid, p.run_accounts hvalid hgo (hadds t)⟩

end Plan
end Progression
