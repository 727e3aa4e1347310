import Progression.Proofs.Equipping
import Progression.Proofs.Leveling.Round
import Progression.Proofs.Switching

/-!
The leveling of a class. `Ascent` strings rounds together as the loop does, and `Climb` puts in front
of them what comes before the loop. Both are opened once, in `ascent_of_levelFrom` and in
`climb_of_levelClass`; what is said of the leveling of a class is said of its climb.
-/

namespace Progression

variable {σ : Type}

/-- A round that was begun: the level it was begun at, the time, and what it added. -/
structure LevelRound where
  level : UInt32
  time : Nat
  entries : List Entry

/-- What a round added, with the look at the level before it and the mark of its beginning. -/
def LevelRound.all (j : Job) (r : LevelRound) : List Entry :=
  ⟨r.time, .asked (.level j) r.level⟩ :: ⟨r.time, .round j r.level⟩ :: r.entries

namespace Plan

variable (p : Plan σ) (j : Job)

/-! ### The loop -/

/-- A round is begun below the goal, at the level that is read. -/
structure Begins (goal : UInt32) (s : Session σ) (r : LevelRound) (t : Session σ) : Prop where
  below : r.level < goal
  seen : r.level = p.host.sees s (.level j)
  adds : s.Adds t [⟨r.time, .asked (.level j) r.level⟩, ⟨r.time, .round j r.level⟩]
  keeps : s.Keeps t
  upToDate : p.host.UpToDate j s → p.host.UpToDate j t

/-- Rounds one after the other, with a number of rounds to go: the rounds that were begun, what was
added after the last of them, and how it ends. -/
inductive Ascent (goal : UInt32) : Nat → Session σ → List LevelRound → List Entry →
    Except Halt LevelingOutcome → Session σ → Prop
  | calledOff {n s} : Ascent goal n s [] [] (.error (.failed .cancelled)) s
  | exhausted {s} : Ascent goal 0 s [] [] (.error .endless) s
  | reached {n s t level} : goal ≤ level →
      p.host.Glance s t [⟨s.now, .asked (.level j) level⟩] →
      Ascent goal (n + 1) s [] [⟨s.now, .asked (.level j) level⟩] (.ok (.reached level)) t
  | stopped {n s r u e t} : p.Begins j goal s r u → p.IsRound j r.level u r.entries (.error e) t →
      Ascent goal (n + 1) s [r] [] (.error e) t
  | ended {n s r u outcome t} : p.Begins j goal s r u →
      p.IsRound j r.level u r.entries (.ok (some outcome)) t →
      Ascent goal (n + 1) s [r] [] (.ok outcome) t
  | goesOn {n s r u v rs last result t} : p.Begins j goal s r u →
      p.IsRound j r.level u r.entries (.ok none) v → Ascent goal n v rs last result t →
      Ascent goal (n + 1) s (r :: rs) last result t

theorem go_level (s : Session σ) : ∃ (level : UInt32) (t : Session σ),
    (p.level j).go s = (.ok level, t) ∧ level = p.host.sees s (.level j) ∧ t.now = s.now ∧
      p.host.Glance s t [⟨s.now, .asked (.level j) level⟩] :=
  ⟨_, _, p.host.go_look s _, rfl, s.now_asked _ _, Host.glance_asked _⟩

variable {p j} in
theorem Begins.of_glance {goal level : UInt32} {s t : Session σ} (hlevel : level < goal)
    (hseen : level = p.host.sees s (.level j)) (hnow : t.now = s.now)
    (hg : p.host.Glance s t [⟨s.now, .asked (.level j) level⟩]) (es : List Entry) :
    p.Begins j goal s ⟨level, s.now, es⟩ (t.note (.round j level)) where
  below := hlevel
  seen := hseen
  adds := by
    have hn := t.history_note (.round j level)
    rw [hnow] at hn
    exact hg.adds.snoc hn
  keeps := hg.keeps.trans ⟨rfl, rfl, rfl⟩
  upToDate hs := (hs.glance hg).note id

theorem ascent_of_levelFrom (goal : UInt32) (iterations n : Nat) (s : Session σ) :
    ∃ result t rs last, (p.levelFrom j goal iterations n).go s =
        (result.map fun outcome => (outcome, iterations + rs.length), t) ∧
      p.Ascent j goal n s rs last result t := by
  induction n generalizing iterations s with
  | zero =>
    unfold levelFrom
    obtain hc | hc := Act.go_check_cases s
    · exact ⟨.error _, s, [], [], Act.go_bind_error hc _, .calledOff⟩
    · exact ⟨.error _, s, [], [], by rw [Act.go_bind_ok hc]; rfl, .exhausted⟩
  | succ n ih =>
    unfold levelFrom
    obtain hc | hc := Act.go_check_cases s
    · exact ⟨.error _, s, [], [], Act.go_bind_error hc _, .calledOff⟩
    obtain ⟨level, t, hgo, hseen, hnow, hg⟩ := p.go_level j s
    rw [Act.go_bind_ok hc, Act.go_bind_ok hgo]
    by_cases hgoal : goal ≤ level
    · exact ⟨.ok _, t, [], _, by rw [if_pos hgoal]; rfl, .reached hgoal hg⟩
    rw [if_neg hgoal, Act.go_bind_ok (Act.go_note t _)]
    obtain ⟨result, u, es, hgo', hround⟩ :=
      p.isRound_of_levelRound j level (t.note (.round j level))
    have hb := Begins.of_glance (UInt32.not_le.1 hgoal) hseen hnow hg es
    match result with
    | .error e => exact ⟨.error e, u, _, [], Act.go_bind_error hgo' _, .stopped hb hround⟩
    | .ok (some outcome) =>
      exact ⟨.ok outcome, u, _, [], by rw [Act.go_bind_ok hgo']; rfl, .ended hb hround⟩
    | .ok none =>
      obtain ⟨result, v, rs, last, hgo'', ha⟩ := ih (iterations + 1) u
      refine ⟨result, v, _, last, ?_, .goesOn hb hround ha⟩
      rw [Act.go_bind_ok hgo', List.length_cons, Nat.add_comm rs.length, ← Nat.add_assoc]
      exact hgo''

/-! ### What comes before the loop -/

/-- Before the first round of a class it is made the active one: that is all that is done, and if it
succeeds, the class was seen to be active. -/
structure Prepares (s : Session σ) (start : UInt32) (lead : List Entry)
    (switched : Except Halt Bool) (t : Session σ) : Prop where
  unlocked : start ≠ 0
  below : start < p.goals.target j
  starts : ∃ es, lead = ⟨s.now, .asked (.level j) start⟩ :: es
  directed : p.Directed ["Leveling"] noOrders (Setup.IsChange j) s lead switched t
  confirmed : switched = .ok true → ∃ time, ⟨time, .asked .activeJob (some j)⟩ ∈ lead

/-- The leveling of a class from a level on: what is added before the first round, the rounds that
are begun, and what is added after the last of them. -/
inductive Climb (phase : Phase) (s : Session σ) (start : UInt32) :
    List Entry → List LevelRound → List Entry → Except Halt ClassRun → Session σ → Prop
  | settled {outcome t} : p.host.Glance s t [⟨s.now, .asked (.level j) start⟩] →
      start = 0 ∧ outcome = .notUnlocked ∨
        start ≠ 0 ∧ p.goals.target j ≤ start ∧ outcome = .reached start →
      Climb phase s start [⟨s.now, .asked (.level j) start⟩] [] []
        (.ok ⟨j, phase, start, start, 0, outcome⟩) t
  | hindered {lead t} : p.Prepares j s start lead (.ok false) t →
      Climb phase s start lead [] [] (.ok ⟨j, phase, start, start, 0, .switchFailed⟩) t
  | broken {lead e t} : p.Prepares j s start lead (.error e) t →
      Climb phase s start lead [] [] (.error e) t
  | stopped {lead u rs last e t} : p.Prepares j s start lead (.ok true) u →
      p.Ascent j (p.goals.target j) p.rounds u rs last (.error e) t →
      Climb phase s start lead rs last (.error e) t
  | ended {lead u rs last outcome v endLevel t} : p.Prepares j s start lead (.ok true) u →
      p.Ascent j (p.goals.target j) p.rounds u rs last (.ok outcome) v →
      endLevel = p.host.sees v (.level j) →
      p.host.Glance v t [⟨v.now, .asked (.level j) endLevel⟩] →
      Climb phase s start lead rs (last ++ [⟨v.now, .asked (.level j) endLevel⟩])
        (.ok ⟨j, phase, start, endLevel, rs.length, outcome⟩) t

variable {p j} in
theorem Prepares.of_served {s u t : Session σ} {start : UInt32} (hunlocked : start ≠ 0)
    (hbelow : start < p.goals.target j) (hg : p.host.Glance s u [⟨s.now, .asked (.level j) start⟩])
    {detail : String} {es : List Entry} {switched : Except Halt Bool}
    (hgo : (p.switchAndEquip j).go (u.directed "Leveling" detail) = (switched, t))
    (hes : p.Served noOrders (Setup.IsChange j) (u.directed "Leveling" detail) es switched t) :
    p.Prepares j s start (⟨s.now, .asked (.level j) start⟩ :: es) switched t where
  unlocked := hunlocked
  below := hbelow
  starts := ⟨es, rfl⟩
  directed := {
    adds := hg.adds.trans hes.adds
    hands := hes.hands.after (hands_of_looks hg.looks)
    within := List.forall_mem_cons.2 ⟨trivial, hes.within⟩
    retains := (hg.keeps.retains.trans (u.retains_directed _ _)).trans hes.keeps.retains
    halts := hes.halts }
  confirmed := by
    rintro rfl
    obtain ⟨time, hmem⟩ := p.exists_asked_of_switchAndEquip j hgo hes.adds
    exact ⟨time, .tail _ hmem⟩

theorem climb_of_levelClass (phase : Phase) (s : Session σ) : ∃ start result t lead rs last,
    (p.levelClass phase j).go s = (result, t) ∧ start = p.host.sees s (.level j) ∧
      p.Climb j phase s start lead rs last result t := by
  obtain ⟨start, u, hgo, hseen, -, hg⟩ := p.go_level j s
  refine ⟨start, ?_⟩
  unfold levelClass
  rw [Act.go_bind_ok hgo]
  by_cases hzero : start = 0
  · exact ⟨_, u, _, [], [], by rw [if_pos hzero]; rfl, hseen, .settled hg (.inl ⟨hzero, rfl⟩)⟩
  rw [if_neg hzero]
  by_cases hgoal : p.goals.target j ≤ start
  · exact ⟨_, u, _, [], [], by rw [if_pos hgoal]; rfl, hseen, .settled hg (.inr ⟨hzero, hgoal, rfl⟩)⟩
  rw [if_neg hgoal, Act.go_bind_ok (Act.go_publishDirective u _ _)]
  obtain ⟨es, hes⟩ := Setup.serves_switchAndEquip (p := p.toSetup) (B := noOrders)
    (C := Setup.IsChange j) (fun _ hc => hc) (u.directed "Leveling" _)
  rcases hswitched : (p.switchAndEquip j).go (u.directed "Leveling" _) with ⟨e | switched, v⟩
  all_goals
    rw [hswitched] at hes
    have hprepares := Prepares.of_served hzero (UInt32.not_le.1 hgoal) hg hswitched hes
  · exact ⟨_, v, _, [], [], Act.go_bind_error hswitched _, hseen, .broken hprepares⟩
  · rw [Act.go_bind_ok hswitched]
    cases switched with
    | false => exact ⟨_, v, _, [], [], rfl, hseen, .hindered hprepares⟩
    | true =>
      obtain ⟨result, w, rs, last, hgo', ha⟩ :=
        p.ascent_of_levelFrom j (p.goals.target j) 0 p.rounds v
      cases result with
      | error e => exact ⟨_, w, _, rs, last, Act.go_bind_error hgo' _, hseen, .stopped hprepares ha⟩
      | ok outcome =>
        obtain ⟨endLevel, t, hgo'', hend, -, hg'⟩ := p.go_level j w
        refine ⟨_, t, _, rs, _, ?_, hseen, .ended hprepares ha hend hg'⟩
        show ((p.levelFrom j (p.goals.target j) 0 p.rounds >>= _).go v) = _
        rw [Act.go_bind_ok hgo', Nat.zero_add]
        exact Act.go_bind_ok hgo'' _

/-! ### What is added -/

section Works

variable {p j} {goal : UInt32} {s t : Session σ} {rs : List LevelRound} {last : List Entry}

theorem Begins.works {r : LevelRound} (h : p.Begins j goal s r t) {D : List String}
    {C : Command → Prop} :
    s.Works D C [⟨r.time, .asked (.level j) r.level⟩, ⟨r.time, .round j r.level⟩] t :=
  ⟨⟨h.adds, by simp [Event.In]⟩, h.keeps.summary⟩

theorem IsRound.works_all {r : LevelRound} {u : Session σ}
    {result : Except Halt (Option LevelingOutcome)} (hb : p.Begins j goal s r u)
    (hr : p.IsRound j r.level u r.entries result t) :
    s.Works ["Objective", "Grinding"] (p.IsLeveling j) (r.all j) t :=
  hb.works.trans hr.works

theorem Ascent.works {n : Nat} {result : Except Halt LevelingOutcome}
    (h : p.Ascent j goal n s rs last result t) :
    s.Works ["Objective", "Grinding"] (p.IsLeveling j) (rs.flatMap (·.all j) ++ last) t := by
  induction h with
  | calledOff => exact .refl _
  | exhausted => exact .refl _
  | reached _ hg => exact hg.works
  | stopped hb hr => simpa using hr.works_all hb
  | ended hb hr => simpa using hr.works_all hb
  | goesOn hb hr _ ih => simpa using (hr.works_all hb).trans ih

theorem Prepares.works {start : UInt32} {lead : List Entry} {switched : Except Halt Bool}
    (h : p.Prepares j s start lead switched t) :
    s.Works ["Leveling", "Objective", "Grinding"] (p.IsLeveling j) lead t :=
  h.directed.works (by simp) fun _ hc => .inl hc

theorem Climb.works {phase : Phase} {start : UInt32} {lead : List Entry}
    {result : Except Halt ClassRun} (h : p.Climb j phase s start lead rs last result t) :
    s.Works ["Leveling", "Objective", "Grinding"] (p.IsLeveling j)
      (lead ++ rs.flatMap (·.all j) ++ last) t := by
  cases h with
  | settled hg => simpa using hg.works
  | hindered hp => simpa using hp.works
  | broken hp => simpa using hp.works
  | stopped hp ha => simpa using hp.works.trans (ha.works.mono (by simp) fun _ hc => hc)
  | ended hp ha _ hg =>
    simpa using (hp.works.trans (ha.works.mono (by simp) fun _ hc => hc)).trans hg.works

/-! ### Orders and marks -/

section Hands

variable {n : Nat} {result : Except Halt LevelingOutcome}

/-- Each round is begun below the goal. -/
theorem Ascent.isRound (h : p.Ascent j goal n s rs last result t) {r : LevelRound} (hr : r ∈ rs) :
    r.level < goal ∧ ∃ u ended v, p.IsRound j r.level u r.entries ended v := by
  induction h with
  | calledOff => cases hr
  | exhausted => cases hr
  | reached => cases hr
  | stopped hb hround =>
    cases List.mem_singleton.1 hr
    exact ⟨hb.below, _, _, _, hround⟩
  | ended hb hround =>
    cases List.mem_singleton.1 hr
    exact ⟨hb.below, _, _, _, hround⟩
  | goesOn hb hround _ ih =>
    obtain rfl | hr := List.mem_cons.1 hr
    · exact ⟨hb.below, _, _, _, hround⟩
    · exact ih hr

theorem Ascent.hands_last (h : p.Ascent j goal n s rs last result t) : Hands noOrders last := by
  induction h with
  | calledOff => exact .of_eq_nil rfl rfl
  | exhausted => exact .of_eq_nil rfl rfl
  | reached _ hg => exact hands_of_looks hg.looks
  | stopped => exact .of_eq_nil rfl rfl
  | ended => exact .of_eq_nil rfl rfl
  | goesOn _ _ _ ih => exact ih

end Hands

section Marks

variable {phase : Phase} {start : UInt32} {lead : List Entry} {result : Except Halt ClassRun}

theorem Climb.isRound (h : p.Climb j phase s start lead rs last result t) {r : LevelRound}
    (hr : r ∈ rs) :
    r.level < p.goals.target j ∧ ∃ u ended v, p.IsRound j r.level u r.entries ended v := by
  cases h with
  | settled => cases hr
  | hindered => cases hr
  | broken => cases hr
  | stopped _ ha => exact ha.isRound hr
  | ended _ ha => exact ha.isRound hr

/-- Each round is begun below the goal and hands over no more than one order of each kind. -/
theorem Climb.parts (h : p.Climb j phase s start lead rs last result t) {r : LevelRound}
    (hr : r ∈ rs) : r.level < p.goals.target j ∧ ∃ fs gs, r.entries = fs ++ gs ∧
      Hands (p.IsDeliverable j) fs ∧ Hands (p.IsGrind j r.level) gs := by
  obtain ⟨hbelow, u, ended, v, hround⟩ := h.isRound hr
  exact ⟨hbelow, hround.parts⟩

/-- Before the first round and after the last one, nothing is handed over. -/
theorem Climb.hands (h : p.Climb j phase s start lead rs last result t) :
    Hands noOrders lead ∧ Hands noOrders last := by
  have hnil : Hands noOrders [] := .of_eq_nil rfl rfl
  cases h with
  | settled hg => exact ⟨hands_of_looks hg.looks, hnil⟩
  | hindered hp => exact ⟨hp.directed.hands, hnil⟩
  | broken hp => exact ⟨hp.directed.hands, hnil⟩
  | stopped hp ha => exact ⟨hp.directed.hands, ha.hands_last⟩
  | ended hp ha _ hg => exact ⟨hp.directed.hands, ha.hands_last.append (hands_of_looks hg.looks)⟩

theorem LevelRound.rounds_flatMap {B A : LevelRound → List Order → Prop}
    (h : ∀ r ∈ rs, ∃ fs gs, r.entries = fs ++ gs ∧ Hands (A r) fs ∧ Hands (B r) gs) :
    rounds (rs.flatMap (·.all j)) = rs.map (·.level) := by
  induction rs with
  | nil => rfl
  | cons r rs ih =>
    obtain ⟨fs, gs, he, hfs, hgs⟩ := h r (by simp)
    have hentries : rounds r.entries = [] := by rw [he, rounds_append, hfs.marks, hgs.marks]; rfl
    have hall : rounds (r.all j) = r.level :: rounds r.entries := by
      simp [LevelRound.all, rounds, Event.round?]
    rw [List.flatMap_cons, rounds_append, ih fun r' hr' => h r' (by simp [hr']), hall, hentries]
    rfl

/-- The marks that are set are those of the rounds. -/
theorem Climb.rounds_eq (h : p.Climb j phase s start lead rs last result t) :
    rounds (lead ++ rs.flatMap (·.all j) ++ last) = rs.map (·.level) := by
  rw [rounds_append, rounds_append, h.hands.1.marks, h.hands.2.marks, List.nil_append,
    List.append_nil]
  exact LevelRound.rounds_flatMap fun r hr => (h.parts hr).2

/-- A run of a class is about the class, and of the phase it belongs to. -/
theorem Climb.names (h : p.Climb j phase s start lead rs last result t) {run : ClassRun}
    (hr : result = .ok run) : run.job = j ∧ run.phase = phase := by
  cases h with
  | settled => cases hr; exact ⟨rfl, rfl⟩
  | hindered => cases hr; exact ⟨rfl, rfl⟩
  | broken => cases hr
  | stopped => cases hr
  | ended => cases hr; exact ⟨rfl, rfl⟩

end Marks

/-! ### How it stops -/

/-- The loop stops as one of its rounds does, unless all its rounds are used up. -/
theorem Ascent.halts {n : Nat} {result : Except Halt LevelingOutcome}
    (h : p.Ascent j goal n s rs last result t) {e : Halt} (he : result = .error e) :
    p.Halts t e ∨ e = .endless ∧ rs.length = n := by
  induction h with
  | calledOff => cases he; exact .inl .calledOff
  | exhausted => cases he; exact .inr ⟨rfl, rfl⟩
  | reached => cases he
  | stopped _ hround =>
    cases he
    cases hround.ends with
    | stopped _ hh => exact .inl hh
  | ended => cases he
  | goesOn _ _ _ ih => exact (ih he).imp id fun ⟨hend, hn⟩ => ⟨hend, by rw [List.length_cons, hn]⟩

theorem Climb.halts {phase : Phase} {start : UInt32} {lead : List Entry}
    {result : Except Halt ClassRun} (h : p.Climb j phase s start lead rs last result t) {e : Halt}
    (he : result = .error e) : p.Halts t e ∨ e = .endless ∧ rs.length = p.rounds := by
  cases h with
  | settled => cases he
  | hindered => cases he
  | broken hp => cases he; exact .inl (hp.directed.halts e rfl)
  | stopped _ ha => cases he; exact ha.halts rfl
  | ended => cases he

end Works

end Plan
end Progression
