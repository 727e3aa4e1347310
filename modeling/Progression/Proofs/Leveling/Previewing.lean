import Progression.Proofs.Drifting
import Progression.Proofs.Leveling.Ascent
import Progression.Proofs.Leveling.Pursuit
import Progression.Proofs.Printing

/-!
Previews of the leveling of a class. `Plan.Planned` says what a round does that follows a preview: it
pursues the objective that comes next, and then hands over the order of the entry. In a game that
keeps showing what the preview was made for, the first round is planned (`planned_of_levelRound`);
the change of class before it drifts, so the game shows the same after it.
-/

namespace Progression

variable {σ : Type}

namespace Plan

open Progression.Number (text)

variable (p : Plan σ) (j : Job)

/-! ### Rounds that follow a preview -/

/-- The pursuit of an objective if there is one: what it adds is about that objective. -/
inductive Pursues : Option Objective → Session σ → List Entry → Except Halt Unit → Session σ → Prop
  | nothing {s : Session σ} : Pursues none s [] (.ok ()) s
  | pursues {o : Objective} {s t : Session σ} {es : List Entry} {result : Except Halt Unit} :
    (p.pursue j o).go s = (result, t) →
    p.Directed ["Objective"] (o.Asks j) (p.IsPursuit j o) s es result t →
    Pursues (some o) s es result t

/-- The order of an entry handed over if there is one. -/
inductive HandsOver : Option Grind → Session σ → List Entry → Option Bool → Session σ → Prop
  | nothing {s : Session σ} : HandsOver none s [] (some true) s
  | order {g : Grind} {s t : Session σ} {es : List Entry} {success : Option Bool} : s.Adds t es →
    Host.Attempted (.order [{
      item := g.item, amount := g.amount
      kind := if j ∈ Job.gatherers then "Gather" else j.title }]) s.now t es success →
    HandsOver (some g) s es success t

/-- An objective if there is one, and then an entry if there is one: what is added, and how the
round ends. -/
inductive Undertakes (level : UInt32) (objective : Option Objective) (grind : Option Grind) :
    Session σ → List Entry → Except Halt (Option LevelingOutcome) → Session σ → Prop
  | broken {s t : Session σ} {es : List Entry} {e : Halt} : p.Pursues j objective s es (.error e) t →
    p.Halts t e → Undertakes level objective grind s es (.error e) t
  | calledOff {s t u : Session σ} {es fs : List Entry} : p.Pursues j objective s es (.ok ()) t →
    HandsOver j grind t fs none u →
    Undertakes level objective grind s (es ++ fs) (.error (.failed .cancelled)) u
  | refused {g : Grind} {s t u : Session σ} {es fs : List Entry} : grind = some g →
    p.Pursues j objective s es (.ok ()) t → HandsOver j grind t fs (some false) u →
    Undertakes level objective grind s (es ++ fs) (.ok (some (.orderFailed g.item g.amount))) u
  /-- The levels are read again, and the round ends the leveling only if it did not help. -/
  | carriedOut {s t u v : Session σ} {es fs gs : List Entry} {outcome : Option LevelingOutcome} :
    p.Pursues j objective s es (.ok ()) t → HandsOver j grind t fs (some true) u → u.Adds v gs →
    (∀ e ∈ gs, e.event.IsLook) → (outcome = some (.stalled level) ∨ outcome = none) →
    Undertakes level objective grind s (es ++ fs ++ gs) (.ok outcome) v

/-- A round that does what a preview says. -/
inductive Planned (v : Cli.Preview) :
    Session σ → List Entry → Except Halt (Option LevelingOutcome) → Session σ → Prop
  /-- There is no way on, and nothing is done but to look. -/
  | idle {s t : Session σ} {es : List Entry} : v.isStuck = true → p.host.Glance s t es →
    Planned v s es (.ok (some (.noProgress v.level))) t
  | undertakes {s t u : Session σ} {es fs : List Entry}
      {ended : Except Halt (Option LevelingOutcome)} : v.isStuck = false → p.host.Glance s t es →
    p.Undertakes v.job v.level v.next v.grind t fs ended u → Planned v s (es ++ fs) ended u

section Adds

variable {p j} {s t : Session σ} {es : List Entry}

theorem Pursues.adds {objective : Option Objective} {result : Except Halt Unit}
    (h : p.Pursues j objective s es result t) : s.Adds t es := by
  cases h with
  | nothing => exact .refl s
  | pursues _ hd => exact hd.adds

theorem HandsOver.adds {grind : Option Grind} {success : Option Bool}
    (h : HandsOver j grind s es success t) : s.Adds t es := by
  cases h with
  | nothing => exact .refl s
  | order hadds _ => exact hadds

theorem Undertakes.adds {level : UInt32} {objective : Option Objective} {grind : Option Grind}
    {ended : Except Halt (Option LevelingOutcome)}
    (h : p.Undertakes j level objective grind s es ended t) : s.Adds t es := by
  cases h with
  | broken hp _ => exact hp.adds
  | calledOff hp hh => exact hp.adds.trans hh.adds
  | refused _ hp hh => exact hp.adds.trans hh.adds
  | carriedOut hp hh hadds _ _ => exact (hp.adds.trans hh.adds).trans hadds

theorem Planned.adds {v : Cli.Preview} {ended : Except Halt (Option LevelingOutcome)}
    (h : p.Planned v s es ended t) : s.Adds t es := by
  cases h with
  | idle _ hg => exact hg.adds
  | undertakes _ hg hu => exact hg.adds.trans hu.adds

end Adds

theorem pursues_of_pursueAny (objective : Option Objective) (s : Session σ) : ∃ result t es,
    (p.pursueAny j objective).go s = (result, t) ∧ p.Pursues j objective s es result t ∧
      ∀ e, result = .error e → p.Halts t e := by
  cases objective with
  | none => exact ⟨.ok (), s, [], rfl, .nothing, nofun⟩
  | some o =>
    obtain ⟨result, t, es, hgo, hd⟩ := p.directed_pursue j o s
    exact ⟨result, t, es, hgo, .pursues hgo hd, hd.halts⟩

/-- How a round goes on once the order of an entry came to its end, or was called off. -/
def goesOnAs (grind : Option Grind) : Option Bool → Except Halt (Option LevelingOutcome)
  | none => .error (.failed .cancelled)
  | some true => .ok none
  | some false => .ok (grind.map fun g => .orderFailed g.item g.amount)

theorem handsOver_of_grindAny (grind : Option Grind) (s : Session σ) : ∃ success t es,
    (p.grindAny j grind).go s = (goesOnAs grind success, t) ∧ HandsOver j grind s es success t := by
  cases grind with
  | none => exact ⟨some true, s, [], rfl, .nothing⟩
  | some g =>
    let detail := text g.item.toNat ++ " x" ++ text g.amount.toNat ++ " for " ++ j.title
    obtain ⟨success, t, es, hgo, hadds, ha⟩ := p.host.attempted_of_attempt
      (.order [{
        item := g.item, amount := g.amount
        kind := if j ∈ Job.gatherers then "Gather" else j.title }]) (s.directed "Grinding" detail)
    rw [← submit_eq] at hgo
    have hgrind : (p.grind j g).go s = (answered success, t) :=
      (Act.go_bind_ok (Act.go_publishDirective s _ _) _).trans hgo
    refine ⟨success, t, es, ?_, .order hadds ha⟩
    unfold grindAny
    match success with
    | none => exact Act.go_bind_error hgrind _
    | some false => exact Act.go_bind_ok hgrind _
    | some true => exact Act.go_bind_ok hgrind _

/-- What a round does once it has chosen. -/
def undertake (level : UInt32) (objective : Option Objective) (grind : Option Grind) :
    Act σ (Option LevelingOutcome) := do
  p.pursueAny j objective
  match ← p.grindAny j grind with
  | some outcome => return some outcome
  | none => p.reckon j level

theorem undertakes_of_undertake (level : UInt32) (objective : Option Objective)
    (grind : Option Grind) (s : Session σ) : ∃ ended t es,
      (p.undertake j level objective grind).go s = (ended, t) ∧
        p.Undertakes j level objective grind s es ended t := by
  obtain ⟨result, t, es, hgo, hpursues, hhalts⟩ := p.pursues_of_pursueAny j objective s
  unfold undertake
  cases result with
  | error e => exact ⟨_, t, es, Act.go_bind_error hgo _, .broken hpursues (hhalts e rfl)⟩
  | ok _ =>
    obtain ⟨success, u, fs, hgo', hhands⟩ := p.handsOver_of_grindAny j grind t
    rw [Act.go_bind_ok hgo]
    match success with
    | none => exact ⟨_, u, _, Act.go_bind_error hgo' _, .calledOff hpursues hhands⟩
    | some false =>
      cases hhands with
      | order hfs ha =>
        exact ⟨_, u, _, Act.go_bind_ok hgo' _, .refused rfl hpursues (.order hfs ha)⟩
    | some true =>
      obtain ⟨outcome, v, gs, hgo'', hadds, hlooks, -, -, hend⟩ := p.go_reckon j level u
      exact ⟨_, v, _, (Act.go_bind_ok hgo' _).trans hgo'',
        .carriedOut hpursues hhands hadds hlooks (hend.imp And.left And.left)⟩

/-- A round at a level for which a preview is made does what the preview says. -/
theorem planned_of_levelRound {level : UInt32} {completed : List ObjectiveId} {s : Session σ}
    (hs : p.host.KeepsShowing j level completed s.instant) : ∃ ended t es,
      (p.levelRound j level).go s = (ended, t) ∧
        p.Planned (.make p.goals p.tables j level completed) s es ended t := by
  let v : Cli.Preview := .make p.goals p.tables j level completed
  have hround : p.levelRound j level = (do
      let objective ← Objective.firstEligible? p.host.look level (p.tables.objectivesFor j)
      if objective.isNone && v.grind.isNone then return some (.noProgress level)
      p.undertake j level objective v.grind) := rfl
  obtain ⟨_, t, es, hlooks, hg⟩ :=
    Objective.looks_firstEligible? p.host level (p.tables.objectivesFor j) s
  obtain ⟨t', hgo, -⟩ := hs.go_firstEligible? level (p.tables.objectivesFor j)
  cases hlooks.symm.trans hgo
  rw [← Cli.Preview.next_make p.goals] at hgo
  have hstuck : (v.next.isNone && v.grind.isNone) = v.isStuck := Bool.and_comm ..
  rw [hround, Act.go_bind_ok hgo, hstuck]
  cases hidle : v.isStuck with
  | true => exact ⟨_, t, es, rfl, .idle hidle hg⟩
  | false =>
    obtain ⟨ended, u, fs, hgo', hunder⟩ := p.undertakes_of_undertake j level v.next v.grind t
    exact ⟨ended, u, _, hgo', .undertakes hidle hg hunder⟩

/-! ### The first round -/

/-- An ascent whose first round is begun at the level of a preview, and does what it says. -/
inductive PlannedAscent (v : Cli.Preview) (s : Session σ) : List LevelRound → List Entry →
    Except Halt LevelingOutcome → Session σ → Prop
  | stopped {r u e t} : p.Begins v.job v.target s r u → r.level = v.level →
      p.Planned v u r.entries (.error e) t → PlannedAscent v s [r] [] (.error e) t
  | ended {r u outcome t} : p.Begins v.job v.target s r u → r.level = v.level →
      p.Planned v u r.entries (.ok (some outcome)) t → PlannedAscent v s [r] [] (.ok outcome) t
  | goesOn {n r u w rs last result t} : p.Begins v.job v.target s r u → r.level = v.level →
      p.Planned v u r.entries (.ok none) w → p.Ascent v.job v.target n w rs last result t →
      PlannedAscent v s (r :: rs) last result t

/-- The leveling of a class, prepared and then begun as a preview says. -/
inductive PlannedClimb (phase : Phase) (v : Cli.Preview) (s : Session σ) : List Entry →
    List LevelRound → List Entry → Except Halt ClassRun → Session σ → Prop
  | stopped {lead u rs last e t} : p.Prepares v.job s v.level lead (.ok true) u →
      p.PlannedAscent v u rs last (.error e) t → PlannedClimb phase v s lead rs last (.error e) t
  | ended {lead u rs last outcome w endLevel t} : p.Prepares v.job s v.level lead (.ok true) u →
      p.PlannedAscent v u rs last (.ok outcome) w →
      p.host.Glance w t [⟨w.now, .asked (.level v.job) endLevel⟩] →
      PlannedClimb phase v s lead rs (last ++ [⟨w.now, .asked (.level v.job) endLevel⟩])
        (.ok ⟨v.job, phase, v.level, endLevel, rs.length, outcome⟩) t

section Climbing

variable {p j} {v : Cli.Preview} {s t : Session σ} {rs : List LevelRound} {last : List Entry}

theorem Begins.adds_all {r : LevelRound} {goal : UInt32} {u : Session σ}
    (hb : p.Begins j goal s r u) (hr : u.Adds t r.entries) : s.Adds t (r.all j) := hb.adds.trans hr

theorem PlannedAscent.adds {result : Except Halt LevelingOutcome}
    (h : p.PlannedAscent v s rs last result t) : s.Adds t (rs.flatMap (·.all v.job) ++ last) := by
  cases h with
  | stopped hb _ hr => simpa using hb.adds_all hr.adds
  | ended hb _ hr => simpa using hb.adds_all hr.adds
  | goesOn hb _ hr ha => simpa using (hb.adds_all hr.adds).trans ha.works.adds

theorem PlannedClimb.adds {phase : Phase} {lead : List Entry} {result : Except Halt ClassRun}
    (h : p.PlannedClimb phase v s lead rs last result t) :
    s.Adds t (lead ++ rs.flatMap (·.all v.job) ++ last) := by
  cases h with
  | stopped hp ha => simpa using hp.directed.adds.trans ha.adds
  | ended hp ha hg => simpa using (hp.directed.adds.trans ha.adds).trans hg.adds

/-- A first round ends for want of a way on exactly if the preview has none. -/
theorem Planned.noProgress_iff {es : List Entry} {ended : Except Halt (Option LevelingOutcome)}
    (h : p.Planned v s es ended t) :
    (∃ n, ended = .ok (some (.noProgress n))) ↔ v.isStuck = true := by
  cases h with
  | idle hidle => exact ⟨fun _ => hidle, fun _ => ⟨_, rfl⟩⟩
  | undertakes hidle _ hu =>
    rw [hidle]
    refine ⟨?_, nofun⟩
    rintro ⟨n, rfl⟩
    cases hu with
    | carriedOut _ _ _ _ hend => rcases hend with h | h <;> cases h

/-- An ascent that begins as planned ends so in its first round exactly if that round does. -/
theorem PlannedAscent.noProgress_iff {result : Except Halt LevelingOutcome}
    (h : p.PlannedAscent v s rs last result t) :
    (rs.length = 1 ∧ ∃ n, result = .ok (.noProgress n)) ↔ v.isStuck = true := by
  cases h with
  | stopped _ _ hr => simp [← hr.noProgress_iff]
  | ended _ _ hr => simp [← hr.noProgress_iff]
  | goesOn _ _ hr ha =>
    rw [← hr.noProgress_iff]
    refine ⟨?_, by simp⟩
    -- A round after the first one is counted, and without one the goal was reached.
    rintro ⟨hone, n, rfl⟩
    cases List.length_eq_zero_iff.1 (Nat.succ.inj hone)
    cases ha

theorem PlannedClimb.noProgress_iff {phase : Phase} {lead : List Entry}
    {result : Except Halt ClassRun} (h : p.PlannedClimb phase v s lead rs last result t) :
    (∃ run, result = .ok run ∧ run.iterations = 1 ∧ ∃ n, run.outcome = .noProgress n) ↔
      v.isStuck = true := by
  cases h with
  | stopped _ ha => simp [← ha.noProgress_iff]
  | ended _ ha _ => simp [← ha.noProgress_iff]

end Climbing

/-- The session in which a class is about to be made the active one. -/
def readied (s : Session σ) : Session σ :=
  (s.asked (.level j) (p.host.ask (.level j) s.now s.world)).directed "Leveling"
    (j.title ++ " " ++ text (p.host.sees s (.level j)).toNat ++ " -> " ++
      text (p.goals.target j).toNat)

section Leveling

variable {p j} {level : UInt32} {completed : List ObjectiveId} {s : Session σ}

theorem go_level_of_keepsShowing (hs : p.host.KeepsShowing j level completed s.instant) :
    (p.level j).go s = (.ok level, s.asked (.level j) (p.host.ask (.level j) s.now s.world)) ∧
      p.host.sees s (.level j) = level := by
  have hseen : p.host.sees s (.level j) = level := hs.shows.level
  have hgo : (p.level j).go s = (.ok (p.host.sees s (.level j)),
    s.asked (.level j) (p.host.ask (.level j) s.now s.world)) := p.host.go_look s (.level j)
  rw [hseen] at hgo
  exact ⟨hgo, hseen⟩

theorem planned_of_levelFrom (hs : p.host.KeepsShowing j level completed s.instant)
    (hc : s.isCancelled = false) (hbelow : level < p.goals.target j) (n : Nat) :
    ∃ result t rs last, (p.levelFrom j (p.goals.target j) 0 (n + 1)).go s =
        (result.map fun outcome => (outcome, rs.length), t) ∧
      p.PlannedAscent (.make p.goals p.tables j level completed) s rs last result t := by
  have hcheck : (Act.check : Act σ Unit).go s = (.ok (), s) := by
    rw [Act.go_check, hc, if_neg Bool.false_ne_true]
  obtain ⟨hgo, hseen⟩ := go_level_of_keepsShowing hs
  have hg : p.host.Glance s _ _ := Host.glance_asked (.level j)
  rw [hseen] at hg
  have hdrifted := hs.drifted (Host.drifted_asked s (.level j))
  have hnow := s.now_asked (.level j) (p.host.ask (.level j) s.now s.world)
  generalize s.asked (.level j) (p.host.ask (.level j) s.now s.world) = t at *
  unfold levelFrom
  rw [Act.go_bind_ok hcheck, Act.go_bind_ok hgo, if_neg (UInt32.not_le.2 hbelow),
    Act.go_bind_ok (Act.go_note t _)]
  obtain ⟨ended, u, es, hgo', hplanned⟩ :=
    p.planned_of_levelRound j (s := t.note (.round j level)) hdrifted
  have hb := Begins.of_glance hbelow hseen.symm hnow hg es
  cases ended with
  | error e => exact ⟨.error e, u, _, [], Act.go_bind_error hgo' _, .stopped hb rfl hplanned⟩
  | ok ended =>
    cases ended with
    | some outcome =>
      exact ⟨.ok outcome, u, _, [], Act.go_bind_ok hgo' _, .ended hb rfl hplanned⟩
    | none =>
      obtain ⟨result, v, rs, last, hgo'', ha⟩ := p.ascent_of_levelFrom j (p.goals.target j) 1 n u
      refine ⟨result, v, _, last, ?_, .goesOn hb rfl hplanned ha⟩
      rw [Act.go_bind_ok hgo', List.length_cons, Nat.add_comm rs.length]
      exact hgo''

theorem planned_of_levelClass (hs : p.host.KeepsShowing j level completed s.instant)
    (hunlocked : level ≠ 0) (hbelow : level < p.goals.target j) (hrounds : p.rounds ≠ 0)
    (hconfirmed : ((p.switchAndEquip j).go (p.readied j s)).1 = .ok true) (phase : Phase) :
    ∃ result t lead rs last, (p.levelClass phase j).go s = (result, t) ∧
      p.PlannedClimb phase (.make p.goals p.tables j level completed) s lead rs last result t := by
  obtain ⟨hgo, hseen⟩ := go_level_of_keepsShowing hs
  have hg : p.host.Glance s _ _ := Host.glance_asked (.level j)
  rw [hseen] at hg
  have hdrifted : p.host.Drifted j s (p.readied j s) := Host.drifted_asked s (.level j)
  have hswitch := p.drifted_of_switchAndEquip j (p.readied j s)
  obtain ⟨es, hes⟩ := Setup.serves_switchAndEquip (p := p.toSetup) (B := noOrders)
    (C := Setup.IsChange j) (fun _ hc => hc) (p.readied j s)
  rcases hchange : (p.switchAndEquip j).go (p.readied j s) with ⟨switched, u⟩
  rw [hchange] at hconfirmed hes hswitch
  subst hconfirmed
  have hprepares := Prepares.of_served hunlocked hbelow hg hchange hes
  obtain ⟨n, hn⟩ := Nat.exists_eq_succ_of_ne_zero hrounds
  obtain ⟨result, w, rs, last, hgo', ha⟩ := planned_of_levelFrom
    ((hs.drifted hdrifted).drifted hswitch) (p.isCancelled_of_switchAndEquip j hchange) hbelow n
  rw [readied, hseen] at hchange
  unfold levelClass
  rw [Act.go_bind_ok hgo, if_neg hunlocked, if_neg (UInt32.not_le.2 hbelow),
    Act.go_bind_ok (Act.go_publishDirective _ _ _), Act.go_bind_ok hchange, hn]
  cases result with
  | error e => exact ⟨_, w, _, rs, _, Act.go_bind_error hgo' _, .stopped hprepares ha⟩
  | ok outcome =>
    obtain ⟨endLevel, t, hgo'', -, -, hg'⟩ := p.go_level j w
    exact ⟨_, t, _, rs, _, (Act.go_bind_ok hgo' _).trans (Act.go_bind_ok hgo'' _),
      .ended hprepares ha hg'⟩

end Leveling

/-- A preview tells the first round of a class. In a scenario that shows what the preview was made
for, in which nothing happens by itself and no objective is held, and once the change of class is
confirmed, the first round pursues the objective that comes next, if there is one, and unless it is
called off, it hands over the order of the entry, if there is one. With neither of them the leveling
ends right there for want of a way on, and only then, and only then the preview says so. -/
theorem levelClass_follows_preview (p : Plan Scenario) (phase : Phase) (j : Job)
    (s : Session Scenario) {completed : List ObjectiveId} (hhost : p.host = Scenario.host)
    (hquiet : s.world.Quiet j) (hheld : s.world.held = [])
    (hcompleted : ∀ id, id ∈ completed ↔ id ∈ s.world.completed)
    (hunlocked : s.world.levelOf j ≠ 0) (hbelow : s.world.levelOf j < p.goals.target j)
    (hrounds : p.rounds ≠ 0)
    (hconfirmed : ((p.switchAndEquip j).go (p.readied j s)).1 = .ok true) :
    let v : Cli.Preview := .make p.goals p.tables j (s.world.levelOf j) completed
    (∀ files config tables name json, Cli.Reads files config tables name p.goals p.tables j →
      Cli.plan files config tables name (s.world.levelOf j) completed json =
        if json then .ofJson v.toJson else .ofLines v.lines) ∧
    (∃ fields, v.toJson = .object fields ∧
      Json.field? "next_objective" fields = some (match v.next with
        | some o => o.write
        | none => .null) ∧
      Json.field? "grind" fields = some (match v.grind with
        | some g => g.write
        | none => .null)) ∧
    (Cli.Preview.noWayOn ∈ v.lines ↔ v.next = none ∧ v.grind = none) ∧
    ∃ result t lead rs last, (p.levelClass phase j).go s = (result, t) ∧
      s.Adds t (lead ++ rs.flatMap (·.all j) ++ last) ∧
      p.PlannedClimb phase v s lead rs last result t ∧
      ((∃ run, result = .ok run ∧ run.iterations = 1 ∧ ∃ n, run.outcome = .noProgress n) ↔
        v.next = none ∧ v.grind = none) := by
  intro v
  have hshows := Scenario.keepsShowing hquiet hheld hcompleted s.now
  rw [← hhost] at hshows
  obtain ⟨result, t, lead, rs, last, hgo, hclimb⟩ :=
    planned_of_levelClass hshows hunlocked hbelow hrounds hconfirmed phase
  refine ⟨fun _ _ _ _ json h => Cli.plan_eq h _ _ json, v.toJson_says, ?_, result, t, lead, rs,
    last, hgo, hclimb.adds, hclimb, hclimb.noProgress_iff.trans v.isStuck_iff⟩
  rw [v.noWayOn_mem_lines_iff, v.isStuck_iff]
  exact and_iff_left hbelow

/-- A miner at 5 who completed the first of two objectives: the second comes next, and is printed. -/
theorem levelClass_follows_preview_of_miner :
    let second : Objective := {
      id := 9001, prerequisite := 9000, level := 5, actor := 500, zone := 129, place := .origin }
    let p : Plan Scenario := {
      host := Scenario.host, timing := {}, rounds := 50
      tables := {
        grinds := [⟨.miner, 1, 7, 4⟩, ⟨.miner, 6, 8, 2⟩]
        objectives := [(.miner, [{ second with id := 9000, prerequisite := 0 }, second])] }
      goals := { gatherers := 7 } }
    let s : Session Scenario := { world := {
      completed := [9000], levels := [(.miner, 5)], gain := 1, changePrompts := true } }
    let v : Cli.Preview := .make p.goals p.tables .miner 5 [9000]
    let record (fields : String) : String := "\x7b" ++ fields ++ "\x7d"
    let files : Tree := .ofFiles [
      ("goals.yaml", "progression: " ++ record "gatherer_target_level: 7"),
      ("tables.yaml", "grinds:\n- " ++ record "class: miner, min_level: 1, item: 7, amount: 4" ++
        "\n- " ++ record "class: miner, min_level: 6, item: 8, amount: 2" ++
        "\nobjectives:\n  miner:\n  - " ++ record ("objective: 9000, required_level: 5, " ++
          "actor: 500, zone: 129, location: &here " ++ record "x: 0, y: 0, z: 0") ++
        "\n  - " ++ record ("objective: 9001, prerequisite: 9000, required_level: 5, " ++
          "actor: 500, zone: 129, location: *here"))]
    s.world.Quiet .miner ∧ s.world.held = [] ∧ s.world.levelOf .miner = 5 ∧
      5 < p.goals.target .miner ∧ p.rounds ≠ 0 ∧
      ((p.switchAndEquip .miner).go (p.readied .miner s)).1 = .ok true ∧
      v.next = some second ∧ v.grind = some ⟨.miner, 1, 7, 4⟩ ∧
      Cli.plan files "goals.yaml" "tables.yaml" "miner" 5 [9000] false = .ofLines [
        "Miner at level 5 (target 7)", "Grind: item 7 x4 (entry for level 1+)", "",
        "OBJECTIVE  LEVEL  ACTOR  ZONE  DELIVER", "---------  -----  -----  ----  -------",
        "9001       5      500    129   -"] ∧
      ∃ result t lead rs last, (p.levelClass .levelGatherers .miner).go s = (result, t) ∧
        p.PlannedClimb .levelGatherers v s lead rs last result t := by
  intro second p s v record files
  have hquiet : s.world.Quiet .miner := ⟨by simp [s], by simp [s]⟩
  have hconfirmed : ((p.switchAndEquip .miner).go (p.readied .miner s)).1 = .ok true := by
    decide +kernel
  have hbelow : s.world.levelOf .miner < p.goals.target .miner := by decide
  have hreads : Cli.Reads files "goals.yaml" "tables.yaml" "miner" p.goals p.tables .miner :=
    ⟨⟨{ goals := p.goals }, by decide +kernel, rfl⟩, by decide +kernel, by decide +kernel⟩
  obtain ⟨hprints, -, -, result, t, lead, rs, last, hgo, -, hclimb, -⟩ :=
    p.levelClass_follows_preview .levelGatherers .miner s rfl hquiet rfl (fun _ => Iff.rfl)
      (by decide) hbelow (by decide) hconfirmed
  refine ⟨hquiet, rfl, rfl, hbelow, by decide, hconfirmed, by decide, by decide, ?_, result, t, lead,
    rs, last, hgo, hclimb⟩
  refine (hprints files _ _ _ false hreads).trans (congrArg Cli.Report.ofLines ?_)
  decide +kernel

end Plan
end Progression
