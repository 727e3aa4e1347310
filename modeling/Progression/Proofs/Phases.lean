import Progression.Proofs.Leveling.Ascent
import Progression.Proofs.Stopping

/-!
A run and its phases. Unlocking the classes, leveling a group of them and going through the phases
are each the same work done for every member of a list (`Act.each`), so a property that holds of a
sequence when it holds of its parts holds of a run when it holds of one unlock, of the leveling of
one class, and of what a phase does besides. Three such properties are carried up: why work stops,
what commands it gives under which directives, and what it sums up.
-/

namespace Progression

variable {σ α β : Type}

namespace Act

/-- Work done for every member of a list. -/
def each (one : α → Act σ Unit) : List α → Act σ Unit
  | [] => pure ()
  | x :: xs => one x >>= fun _ => each one xs

variable {one : α → Act σ Unit} {xs : List α}

theorem StopsWith.each {P : Session σ → Halt → Prop} (h : ∀ x, (one x).StopsWith P) (xs : List α) :
    (each one xs).StopsWith P := by
  induction xs with
  | nil => exact stopsWith_pure ()
  | cons x xs ih => exact (h x).bind fun _ => ih

theorem Directs.each {D : List String} {C : Command → Prop}
    (h : ∀ x ∈ xs, (one x).Directs D C) : (each one xs).Directs D C := by
  induction xs with
  | nil => exact directs_pure ()
  | cons x xs ih => exact (h x (by simp)).bind fun _ => ih fun y hy => h y (by simp [hy])

end Act

/-- How a phase that is over ends. -/
def Phase.outcome : Phase → PhaseOutcome
  | levelToCap => .unimplemented
  | _ => .completed

namespace Plan

variable (p : Plan σ)

/-! ### A run as work for every member of a list -/

/-- Unlocks a class of the table unless it is skipped or unlocked already. -/
def unlockOne (u : Unlock) : Act σ Unit := do
  Act.check
  if !p.goals.isSkipped u.job then
    let level ← p.level u.job
    if level = 0 then
      Act.publishDirective "Unlocking" u.job.title
      let report ← p.unlock u
      p.refreshTargets
      modify fun s =>
        { s with summary := { s.summary with unlocked := s.summary.unlocked ++ [report] } }

theorem unlockAll_eq (us : List Unlock) : p.unlockAll us = Act.each p.unlockOne us := by
  induction us with
  | nil => rfl
  | cons u us ih =>
    rw [unlockAll, Act.each, ← ih, unlockOne, bind_assoc]
    refine bind_congr fun _ => ?_
    split
    · rw [bind_assoc]
      refine bind_congr fun level => ?_
      split
      · simp only [bind_assoc]
      · rw [pure_bind]
    · rw [pure_bind]

/-- Levels a class of a group unless it is skipped. -/
def levelOne (phase : Phase) (j : Job) : Act σ Unit := do
  Act.check
  if !p.goals.isSkipped j then
    let run ← p.levelClass phase j
    modify fun s => { s with summary := { s.summary with classes := s.summary.classes ++ [run] } }

theorem levelGroup_eq (phase : Phase) (js : List Job) :
    p.levelGroup phase js = Act.each (p.levelOne phase) js := by
  induction js with
  | nil => rfl
  | cons j js ih =>
    rw [levelGroup, Act.each, ← ih, levelOne, bind_assoc]
    refine bind_congr fun _ => ?_
    split
    · simp only [bind_assoc]
    · rw [pure_bind]

/-- A phase, which is put on record when it is over. -/
def closePhase (phase : Phase) : Act σ Unit := do
  Act.check
  Act.publishDirective phase.title ""
  let outcome ← p.runPhase phase
  modify fun s =>
    { s with summary := { s.summary with phases := s.summary.phases ++ [(phase, outcome)] } }

theorem runPhases_eq (phases : List Phase) : p.runPhases phases = Act.each p.closePhase phases := by
  induction phases with
  | nil => rfl
  | cons phase phases ih =>
    rw [runPhases, Act.each, ← ih, closePhase]
    simp only [bind_assoc]

/-! ### How it stops -/

/-- The leveling of a class used up its rounds. -/
def Outlasts (t : Session σ) : Prop :=
  ∃ j phase s start lead rs last,
    p.Climb j phase s start lead rs last (.error .endless) t ∧ rs.length = p.rounds

/-- Why a run stops: it is called off, a stage of an unlock fails, or it waits for something that
does not come to its end. -/
inductive RunHalts (t : Session σ) : Halt → Prop
  | halts {e} : p.Halts t e → RunHalts t e
  | unlockStep (j : Job) (stage reason : String) :
    RunHalts t (.failed (.unlockStep j.title stage reason))
  | outlasted : p.Outlasts t → RunHalts t .endless

theorem RunHalts.calledOff (t : Session σ) : p.RunHalts t (.failed .cancelled) := .halts .calledOff

theorem stopsWith_refreshTargets : p.refreshTargets.StopsWith p.RunHalts := by
  intro s t e h
  obtain ⟨u, es, hgo, -⟩ := p.go_refreshTargets s
  rw [hgo] at h
  cases h

theorem stopsWith_levelClass (phase : Phase) (j : Job) :
    (p.levelClass phase j).StopsWith p.RunHalts := by
  intro s t e h
  obtain ⟨start, result, t', lead, rs, last, hgo, -, hclimb⟩ := p.climb_of_levelClass j phase s
  rw [h] at hgo
  cases hgo
  obtain hh | ⟨rfl, hn⟩ := hclimb.halts rfl
  · exact .halts hh
  · exact .outlasted ⟨j, phase, s, start, lead, rs, last, hclimb, hn⟩

theorem stopsWith_unlockOne (u : Unlock) : (p.unlockOne u).StopsWith p.RunHalts := by
  refine (Act.stopsWith_check (RunHalts.calledOff p)).bind fun _ => ?_
  split
  · refine (Host.looks_look _).stopsWith.bind ?_
    intro level
    split
    · refine (Act.stopsWith_modify _).bind fun _ => Act.StopsWith.bind ?_ fun report => ?_
      · refine (p.stopsWith_unlock u).mono ?_
        intro t e he
        cases he with
        | halts hh => exact .halts hh
        | failed stage reason => exact .unlockStep u.job stage reason
      · exact p.stopsWith_refreshTargets.bind fun _ => Act.stopsWith_modify _
    · exact Act.stopsWith_pure ()
  · exact Act.stopsWith_pure ()

theorem stopsWith_levelOne (phase : Phase) (j : Job) :
    (p.levelOne phase j).StopsWith p.RunHalts := by
  refine (Act.stopsWith_check (RunHalts.calledOff p)).bind fun _ => ?_
  split
  · exact (p.stopsWith_levelClass phase j).bind fun _ => Act.stopsWith_modify _
  · exact Act.stopsWith_pure ()

theorem stopsWith_closePhase (phase : Phase) : (p.closePhase phase).StopsWith p.RunHalts := by
  refine (Act.stopsWith_check (RunHalts.calledOff p)).bind fun _ => ?_
  refine (Act.stopsWith_modify _).bind fun _ => Act.StopsWith.bind ?_ fun _ => Act.stopsWith_modify _
  have hgroup (js : List Job) : (p.levelGroup phase js).StopsWith p.RunHalts := by
    rw [levelGroup_eq]
    exact .each (p.stopsWith_levelOne phase) js
  cases phase with
  | unlockAll =>
    refine Act.StopsWith.bind ?_ fun _ => Act.stopsWith_pure _
    rw [unlockAll_eq]
    exact .each p.stopsWith_unlockOne _
  | levelGatherers => exact (hgroup _).bind fun _ => Act.stopsWith_pure _
  | levelCrafters => exact (hgroup _).bind fun _ => Act.stopsWith_pure _
  | levelToCap => exact Act.stopsWith_pure _

theorem stopsWith_run (id : String) : (p.run id).StopsWith p.RunHalts := by
  refine (Act.stopsWith_modify _).bind fun _ => p.stopsWith_refreshTargets.bind fun _ => ?_
  rw [runPhases_eq]
  refine (Act.StopsWith.each p.stopsWith_closePhase _).bind fun _ => ?_
  refine (Act.stopsWith_modify _).bind fun _ => (Act.stopsWith_modify _).bind fun _ => ?_
  exact fun _ _ _ h => by cases h

/-! ### What it does -/

/-- A command that unlocks a class of the table that is not skipped. -/
def UnlocksOne (c : Command) : Prop :=
  ∃ u ∈ p.tables.unlocks, p.goals.isSkipped u.job = false ∧ p.IsUnlocking u c

/-- A command that levels a class that is not skipped. -/
def LevelsOne (c : Command) : Prop := ∃ j, p.goals.isSkipped j = false ∧ p.IsLeveling j c

theorem directs_refreshTargets {D : List String} {C : Command → Prop} :
    p.refreshTargets.Directs D C := by
  intro s
  obtain ⟨t, es, hgo, ha, hl, hs, -⟩ := p.go_refreshTargets s
  rw [hgo]
  exact ⟨es, (Session.Works.of_looks ha hl hs).toDoes⟩

theorem directs_unlockOne {u : Unlock} (hu : u ∈ p.tables.unlocks) :
    (p.unlockOne u).Directs ["Unlocking"] p.UnlocksOne := by
  refine Act.directs_check.bind fun _ => ?_
  split
  · next hskip =>
    refine (Host.looks_look _).directs.bind ?_
    intro level
    split
    · -- An unlock gives its commands under the directive that is published just before it, so the
      -- two are taken together.
      have hunlock := (p.remains_unlock u).directs "Unlocking" u.job.title
      replace hunlock := hunlock.mono fun c hc => (⟨u, hu, by simpa using hskip, hc⟩ : p.UnlocksOne c)
      have hrest (report : UnlockReport) : (p.refreshTargets >>= fun _ => modify fun s =>
          { s with summary := { s.summary with unlocked := s.summary.unlocked ++ [report] } }).Directs
            ["Unlocking"] p.UnlocksOne :=
        p.directs_refreshTargets.bind fun _ => Act.directs_modify _ fun _ => rfl
      have hall := hunlock.bind hrest
      rwa [bind_assoc] at hall
    · exact Act.directs_pure ()
  · exact Act.directs_pure ()

theorem directs_levelOne (phase : Phase) (j : Job) :
    (p.levelOne phase j).Directs ["Leveling", "Objective", "Grinding"] p.LevelsOne := by
  refine Act.directs_check.bind fun _ => ?_
  split
  · next hskip =>
    refine Act.Directs.bind ?_ fun _ => Act.directs_modify _ fun _ => rfl
    intro s
    obtain ⟨start, result, t, lead, rs, last, hgo, -, hclimb⟩ := p.climb_of_levelClass j phase s
    rw [hgo]
    exact ⟨_, hclimb.works.toDoes.mono (fun _ h => h) fun c hc => ⟨j, by simpa using hskip, hc⟩⟩
  · exact Act.directs_pure ()

theorem directs_closePhase {phase : Phase} {D : List String} {C : Command → Prop}
    (h : (p.runPhase phase).Directs D C) : (p.closePhase phase).Directs D C := by
  refine Act.directs_check.bind fun _ => (Act.directs_publishDirective _ _).bind fun _ => ?_
  exact h.bind fun _ => Act.directs_modify _ fun _ => rfl

/-- The unlocking phase gives commands of unlocks only. -/
theorem directs_unlockAll :
    (p.closePhase .unlockAll).Directs ["Unlocking"] p.UnlocksOne := by
  refine p.directs_closePhase (Act.Directs.bind ?_ fun _ => Act.directs_pure _)
  rw [unlockAll_eq]
  exact .each fun _ hu => p.directs_unlockOne hu

/-- Every other phase gives commands of leveling only. -/
theorem directs_leveling {phase : Phase} (h : phase ≠ .unlockAll) :
    (p.closePhase phase).Directs ["Leveling", "Objective", "Grinding"] p.LevelsOne := by
  refine p.directs_closePhase ?_
  have hgroup (js : List Job) : (p.levelGroup phase js).Directs
      ["Leveling", "Objective", "Grinding"] p.LevelsOne := by
    rw [levelGroup_eq]
    exact .each fun j _ => p.directs_levelOne phase j
  cases phase with
  | unlockAll => exact absurd rfl h
  | levelGatherers => exact (hgroup _).bind fun _ => Act.directs_pure _
  | levelCrafters => exact (hgroup _).bind fun _ => Act.directs_pure _
  | levelToCap => exact Act.directs_pure _

/-! ### What it sums up -/

/-- An unlock that was carried out. -/
structure UnlockRun (σ : Type) where
  unlock : Unlock
  start : Session σ
  report : UnlockReport
  finish : Session σ

/-- An unlock was carried out between two sessions: it was begun when the last thing seen was that
its class is locked, and the class is not one that is skipped. -/
structure UnlockRun.Sound (s : Session σ) (es : List Entry) (run : UnlockRun σ) : Prop where
  wanted : p.goals.isSkipped run.unlock.job = false
  locked : (p.level run.unlock.job).Leaves 0 run.start
  seen : p.host.Steady → (p.host.sees run.start (.level run.unlock.job) : UInt32) = 0
  begun : ∃ before after, es = before ++ after ∧ s.Adds run.start before
  works : (p.unlock run.unlock).go (run.start.directed "Unlocking" run.unlock.job.title) =
    (.ok run.report, run.finish)

/-- What is summed up from one session to another: phases, unlocks in the order of a list, and
classes with the phase in which each was leveled. -/
structure Sums (phases : List Phase) (us : List Unlock) (classes : List (Job × Phase))
    (s : Session σ) (es : List Entry) (t : Session σ) : Prop where
  adds : s.Adds t es
  phases : t.summary.phases = s.summary.phases ++ phases.map fun phase => (phase, phase.outcome)
  unlocked : ∃ runs : List (UnlockRun σ),
    t.summary.unlocked = s.summary.unlocked ++ runs.map (·.report) ∧
      (runs.map (·.unlock)).Sublist us ∧ ∀ run ∈ runs, run.Sound p s es
  classes : ∃ runs : List ClassRun, t.summary.classes = s.summary.classes ++ runs ∧
    runs.map (fun run => (run.job, run.phase)) = classes

/-- What work sums up whenever it comes to a result. -/
def SumsUp (phases : List Phase) (us : List Unlock) (classes : List (Job × Phase))
    (a : Act σ α) : Prop :=
  ∀ s x t, a.go s = (.ok x, t) → ∃ es, p.Sums phases us classes s es t

section Summing

variable {p} {ps qs : List Phase} {us vs : List Unlock} {cs ds : List (Job × Phase)}
  {s t v : Session σ} {es fs : List Entry} {a : Act σ α} {f : α → Act σ β}

theorem UnlockRun.Sound.append {run : UnlockRun σ} (h : run.Sound p s es) (fs : List Entry) :
    run.Sound p s (es ++ fs) := by
  obtain ⟨before, after, rfl, ha⟩ := h.begun
  exact { h with begun := ⟨before, after ++ fs, by simp, ha⟩ }

theorem UnlockRun.Sound.after {run : UnlockRun σ} (ha : s.Adds t es) (h : run.Sound p t fs) :
    run.Sound p s (es ++ fs) := by
  obtain ⟨before, after, rfl, ha'⟩ := h.begun
  exact { h with begun := ⟨es ++ before, after, by simp, ha.trans ha'⟩ }

theorem Sums.trans (h : p.Sums ps us cs s es t) (h' : p.Sums qs vs ds t fs v) :
    p.Sums (ps ++ qs) (us ++ vs) (cs ++ ds) s (es ++ fs) v where
  adds := h.adds.trans h'.adds
  phases := by rw [h'.phases, h.phases, List.map_append, List.append_assoc]
  unlocked := by
    obtain ⟨runs, hr, ho, hs⟩ := h.unlocked
    obtain ⟨runs', hr', ho', hs'⟩ := h'.unlocked
    refine ⟨runs ++ runs', by rw [hr', hr, List.map_append, List.append_assoc], ?_, ?_⟩
    · rw [List.map_append]
      exact ho.append ho'
    · exact List.forall_mem_append.2
        ⟨fun run hrun => (hs run hrun).append fs, fun run hrun => (hs' run hrun).after h.adds⟩
  classes := by
    obtain ⟨runs, hr, hc⟩ := h.classes
    obtain ⟨runs', hr', hc'⟩ := h'.classes
    exact ⟨runs ++ runs', by rw [hr', hr, List.append_assoc], by rw [List.map_append, hc, hc']⟩

/-- Work after which the summary is as before. -/
theorem Sums.of_summary (ha : s.Adds t es) (hs : t.summary = s.summary) :
    p.Sums [] [] [] s es t where
  adds := ha
  phases := by rw [hs]; simp
  unlocked := ⟨[], by rw [hs]; simp⟩
  classes := ⟨[], by rw [hs]; simp⟩

theorem SumsUp.bind (ha : p.SumsUp ps us cs a) (hf : ∀ x, p.SumsUp qs vs ds (f x)) :
    p.SumsUp (ps ++ qs) (us ++ vs) (cs ++ ds) (a >>= f) := by
  intro s y t h
  obtain ⟨x, v, hx, h⟩ := Act.go_bind_eq_ok.1 h
  obtain ⟨es, hes⟩ := ha s x v hx
  obtain ⟨fs, hfs⟩ := hf x v y t h
  exact ⟨es ++ fs, hes.trans hfs⟩

/-- Before work that sums nothing up. -/
theorem SumsUp.quiet_bind (ha : p.SumsUp [] [] [] a) (hf : ∀ x, p.SumsUp ps us cs (f x)) :
    p.SumsUp ps us cs (a >>= f) := by
  simpa only [List.nil_append] using ha.bind hf

/-- After work that sums nothing up. -/
theorem SumsUp.bind_quiet (ha : p.SumsUp ps us cs a) (hf : ∀ x, p.SumsUp [] [] [] (f x)) :
    p.SumsUp ps us cs (a >>= f) := by
  simpa only [List.append_nil] using ha.bind hf

theorem SumsUp.each {one : α → Act σ Unit} {ps : α → List Phase} {us : α → List Unlock}
    {cs : α → List (Job × Phase)} (h : ∀ x, p.SumsUp (ps x) (us x) (cs x) (one x)) (xs : List α) :
    p.SumsUp (xs.flatMap ps) (xs.flatMap us) (xs.flatMap cs) (Act.each one xs) := by
  induction xs with
  | nil => exact fun s _ _ hgo => by cases hgo; exact ⟨[], .of_summary (.refl s) rfl⟩
  | cons x xs ih =>
    simp only [List.flatMap_cons]
    exact (h x).bind fun _ => ih

theorem sumsUp_of_silent {r : Session σ → Except Halt α} {next : Session σ → Session σ}
    (h : ∀ s, a.go s = (r s, next s))
    (hn : ∀ s, (next s).history = s.history ∧ (next s).summary = s.summary) :
    p.SumsUp [] [] [] a := by
  intro s x t hgo
  rw [h] at hgo
  obtain ⟨-, rfl⟩ := Prod.mk.inj hgo
  exact ⟨[], .of_summary (hn s).1 (hn s).2⟩

theorem sumsUp_check : p.SumsUp [] [] [] Act.check := sumsUp_of_silent Act.go_check (by simp)

theorem sumsUp_pure (x : α) : p.SumsUp [] [] [] (pure x) :=
  sumsUp_of_silent (Act.go_pure · x) (by simp)

theorem sumsUp_publishDirective (directive detail : String) :
    p.SumsUp [] [] [] (Act.publishDirective directive detail) :=
  sumsUp_of_silent (Act.go_publishDirective · directive detail) fun _ => ⟨rfl, rfl⟩

theorem sumsUp_refreshTargets : p.SumsUp [] [] [] p.refreshTargets := by
  intro s x t hgo
  obtain ⟨t', es, hgo', ha, -, hs, -⟩ := p.go_refreshTargets s
  rw [hgo] at hgo'
  cases hgo'
  exact ⟨es, .of_summary ha hs⟩

theorem Sums.sublist (h : p.Sums ps us cs s es t) (hs : us.Sublist vs) : p.Sums ps vs cs s es t := by
  obtain ⟨runs, hr, ho, hsound⟩ := h.unlocked
  exact { h with unlocked := ⟨runs, hr, ho.trans hs, hsound⟩ }

end Summing

/-- An unlock of a class that was just seen to be locked. -/
theorem sums_of_unlock {u : Unlock} {s t v w : Session σ} {report : UnlockReport}
    (hskip : p.goals.isSkipped u.job = false) (hl : (p.level u.job).go s = (.ok 0, v))
    (hu : (p.unlock u).go (v.directed "Unlocking" u.job.title) = (.ok report, w))
    (hr : p.refreshTargets.go w = (.ok (), t)) :
    ∃ es, p.Sums [] [u] [] s es
      { t with summary := { t.summary with unlocked := t.summary.unlocked ++ [report] } } := by
  have hg := Host.glance_of_look hl
  have hlook := Host.looked_of_look hl
  obtain ⟨⟨es, ha, -⟩, hk⟩ := p.remains_unlock u (v.directed "Unlocking" u.job.title)
  rw [hu] at ha hk
  obtain ⟨t', fs, hgo, ha', -, hs, -⟩ := p.go_refreshTargets w
  rw [hr] at hgo
  cases hgo
  have hsummary : t.summary = s.summary := (hs.trans hk.summary).trans hg.keeps.summary
  refine ⟨_, (hg.adds.trans ha).trans ha', ?_, ⟨[⟨u, v, report, w⟩], ?_, ?_, ?_⟩, [], ?_, rfl⟩
  · show t.summary.phases = _
    rw [hsummary]
    simp
  · show t.summary.unlocked ++ [report] = _
    rw [hsummary]
    rfl
  · exact List.Sublist.refl _
  · have hbegun : ∃ before after, [⟨s.now, .asked (.level u.job) 0⟩] ++ es ++ fs =
        before ++ after ∧ s.Adds v before := ⟨_, es ++ fs, List.append_assoc _ _ _, hg.adds⟩
    refine List.forall_mem_singleton.2 ⟨hskip, ⟨s, hl⟩, fun hh => ?_, hbegun, hu⟩
    rw [hlook.steady hh]
    exact hlook.sees
  · show t.summary.classes = _
    rw [hsummary]
    simp

theorem sumsUp_unlockOne (u : Unlock) : p.SumsUp [] [u] [] (p.unlockOne u) := by
  refine sumsUp_check.quiet_bind fun _ => ?_
  split
  · next hskip =>
    intro s x t hgo
    obtain ⟨level, v, hl, hgo⟩ := Act.go_bind_eq_ok.1 hgo
    by_cases hzero : level = 0
    · subst hzero
      rw [if_pos rfl, Act.go_bind_ok (Act.go_publishDirective v _ _)] at hgo
      obtain ⟨report, w, hu, hgo⟩ := Act.go_bind_eq_ok.1 hgo
      obtain ⟨_, w', hr, hgo⟩ := Act.go_bind_eq_ok.1 hgo
      cases hgo
      exact p.sums_of_unlock (by simpa using hskip) hl hu hr
    · rw [if_neg hzero] at hgo
      cases hgo
      have hg := Host.glance_of_look hl
      exact ⟨_, (Sums.of_summary hg.adds hg.keeps.summary).sublist (List.nil_sublist _)⟩
  · intro s x t hgo
    cases hgo
    exact ⟨[], (Sums.of_summary (.refl s) rfl).sublist (List.nil_sublist _)⟩

/-- The classes of a list that a phase levels, in their order. -/
def due (phase : Phase) (js : List Job) : List (Job × Phase) :=
  (js.filter fun j => !p.goals.isSkipped j).map fun j => (j, phase)

theorem flatMap_due (phase : Phase) (js : List Job) :
    js.flatMap (fun j => p.due phase [j]) = p.due phase js := by
  induction js with
  | nil => rfl
  | cons j js ih =>
    rw [List.flatMap_cons, ih]
    unfold due
    rw [← List.map_append, ← List.filter_append]
    rfl

theorem sumsUp_levelOne (phase : Phase) (j : Job) :
    p.SumsUp [] [] (p.due phase [j]) (p.levelOne phase j) := by
  refine sumsUp_check.quiet_bind fun _ => ?_
  split
  · next hskip =>
    intro s x t hgo
    obtain ⟨run, v, hrun, hgo⟩ := Act.go_bind_eq_ok.1 hgo
    cases hgo
    obtain ⟨start, result, v', lead, rs, last, hgo', -, hclimb⟩ := p.climb_of_levelClass j phase s
    rw [hrun] at hgo'
    cases hgo'
    have hsummary : v.summary = s.summary := hclimb.works.summary
    refine ⟨_, hclimb.works.adds, ?_, ⟨[], ?_, ?_, ?_⟩, [run], ?_, ?_⟩
    · show v.summary.phases = _
      rw [hsummary]
      simp
    · show v.summary.unlocked = _
      rw [hsummary]
      simp
    · exact List.Sublist.refl _
    · simp
    · show v.summary.classes ++ [run] = _
      rw [hsummary]
    · obtain ⟨hjob, hphase⟩ := hclimb.names rfl
      simp [due, hskip, hjob, hphase]
  · next hskip =>
    have hdue : p.due phase [j] = [] := by simpa [due] using hskip
    rw [hdue]
    exact sumsUp_pure ()

/-- The unlocks of a phase. -/
def unlocksOf : Phase → List Unlock
  | .unlockAll => p.tables.unlocks
  | _ => []

/-- The classes of a phase. -/
def classesOf : Phase → List Job
  | .levelGatherers => Job.gatherers
  | .levelCrafters => Job.crafters
  | _ => []

theorem sumsUp_runPhase (phase : Phase) : p.SumsUp [] (p.unlocksOf phase)
    (p.due phase (classesOf phase)) (p.runPhase phase) := by
  have hnone {α β : Type} (xs : List α) : xs.flatMap (fun _ => ([] : List β)) = [] :=
    List.flatMap_eq_nil_iff.2 fun _ _ => rfl
  have hgroup (js : List Job) : p.SumsUp [] [] (p.due phase js) (p.levelGroup phase js) := by
    have h := SumsUp.each (p.sumsUp_levelOne phase) js
    rwa [hnone, hnone, flatMap_due, ← levelGroup_eq] at h
  cases phase with
  | unlockAll =>
    have h := SumsUp.each p.sumsUp_unlockOne p.tables.unlocks
    rw [hnone, hnone, List.flatMap_singleton', ← unlockAll_eq] at h
    exact h.bind_quiet fun _ => sumsUp_pure _
  | levelGatherers => exact (hgroup _).bind_quiet fun _ => sumsUp_pure _
  | levelCrafters => exact (hgroup _).bind_quiet fun _ => sumsUp_pure _
  | levelToCap => exact sumsUp_pure _

theorem outcome_of_runPhase {phase : Phase} {s t : Session σ} {outcome : PhaseOutcome}
    (h : (p.runPhase phase).go s = (.ok outcome, t)) : outcome = phase.outcome := by
  cases phase with
  | unlockAll => obtain ⟨_, _, -, h⟩ := Act.go_bind_eq_ok.1 h; cases h; rfl
  | levelGatherers => obtain ⟨_, _, -, h⟩ := Act.go_bind_eq_ok.1 h; cases h; rfl
  | levelCrafters => obtain ⟨_, _, -, h⟩ := Act.go_bind_eq_ok.1 h; cases h; rfl
  | levelToCap => cases h; rfl

theorem sumsUp_closePhase (phase : Phase) : p.SumsUp [phase] (p.unlocksOf phase)
    (p.due phase (classesOf phase)) (p.closePhase phase) := by
  refine sumsUp_check.quiet_bind fun _ => (sumsUp_publishDirective _ _).quiet_bind fun _ => ?_
  intro s x t hgo
  obtain ⟨outcome, v, hv, hgo⟩ := Act.go_bind_eq_ok.1 hgo
  cases hgo
  obtain rfl := p.outcome_of_runPhase hv
  obtain ⟨es, hes⟩ := p.sumsUp_runPhase phase s _ v hv
  have hphases := hes.phases
  exact ⟨es, { hes with
    adds := hes.adds
    phases := by
      show v.summary.phases ++ [(phase, phase.outcome)] = _
      rw [hphases]
      simp }⟩

/-- Phases one after the other. -/
theorem sumsUp_runPhases (phases : List Phase) : p.SumsUp phases (phases.flatMap p.unlocksOf)
    (phases.flatMap fun phase => p.due phase (classesOf phase)) (p.runPhases phases) := by
  rw [runPhases_eq]
  simpa using SumsUp.each p.sumsUp_closePhase phases

end Plan
end Progression
