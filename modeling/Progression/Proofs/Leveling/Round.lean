import Progression.Proofs.Leveling.Handing

/-!
A round of leveling a class. `IsRound` says what a round adds to the history: which commands it
gives, under which directives, and how many orders are among them. `RoundEnd` lists how a round ends
and what it leaves published. The round is opened once, in `isRound_of_levelRound`.
-/

namespace Progression

variable {σ : Type}

/-! ### What is published -/

/-- An event does something to the game. -/
def Event.IsDeed : Event → Prop
  | .did .. => True
  | .ended .. => True
  | _ => False

theorem Event.not_isDeed_of_isLook {e : Event} (h : e.IsLook) : ¬ e.IsDeed := by
  cases e with
  | asked => exact id
  | _ => exact h.elim

/-- The level of a class that observers see, both in the targets and in the snapshot. -/
structure Session.Published (t : Session σ) (j : Job) (level : UInt32) : Prop where
  targets : (t.targets.find? (·.job = j)).map (·.current) = some level
  snapshot : t.status.snapshot.levels.lookup j = some level

theorem Session.Published.of_retains {s t : Session σ} {j : Job} {level : UInt32}
    (h : s.Published j level) (hr : s.Retains t) : t.Published j level :=
  ⟨by rw [hr.targets, h.targets], by rw [hr.levels, h.snapshot]⟩

namespace Host

variable {h : Host σ} {j : Job} {s t : Session σ} {es : List Entry}

/-- The level published of a class was read after all that was done. Where looks change nothing that
can be seen, it can be seen still. -/
def UpToDate (h : Host σ) (j : Job) (t : Session σ) : Prop :=
  ∃ u es, u.Adds t es ∧ (∀ e ∈ es, ¬ e.event.IsDeed) ∧ t.Published j (h.sees u (.level j)) ∧
    (h.Steady → h.sees t = h.sees u)

theorem UpToDate.glance (hs : h.UpToDate j s) (hg : h.Glance s t es) : h.UpToDate j t := by
  obtain ⟨u, fs, ha, hfs, hp, hh⟩ := hs
  refine ⟨u, fs ++ es, ha.trans hg.adds, ?_, hp.of_retains hg.keeps.retains, ?_⟩
  · exact List.forall_mem_append.2 ⟨hfs, fun e he => Event.not_isDeed_of_isLook (hg.looks e he)⟩
  · exact fun hst => (hg.sees hst).trans (hh hst)

theorem UpToDate.note {e : Event} (hs : h.UpToDate j s) (he : ¬ e.IsDeed) :
    h.UpToDate j (s.note e) := by
  obtain ⟨u, fs, ha, hfs, hp, hh⟩ := hs
  exact ⟨u, fs ++ [⟨s.now, e⟩], ha.snoc (s.history_note e),
    List.forall_mem_append.2 ⟨hfs, by simpa using he⟩, hp.of_retains ⟨rfl, rfl, rfl⟩, hh⟩

theorem UpToDate.published (hs : h.UpToDate j t) (hh : h.Steady) :
    t.Published j (h.sees t (.level j)) := by
  obtain ⟨u, es, -, -, hp, hsees⟩ := hs
  rw [hsees hh]
  exact hp

end Host

/-! ### What is ordered -/

theorem Job.orderType_eq (j : Job) :
    j.orderType = if j ∈ gatherers then "Gather" else j.title := by
  cases j <;> rfl

/-- An order says what is to be made and how much of it, and what kind of work that is. -/
theorem Order.new_eq (item : ItemId) (amount : UInt32) (j : Job) : Order.new item amount j =
    { item, amount, kind := if j ∈ Job.gatherers then "Gather" else j.title } := by
  rw [Order.new, Job.orderType_eq]

/-- An order for what an objective asks for. -/
def Objective.Asks (o : Objective) (j : Job) (orders : List Order) : Prop :=
  ∃ amount, orders = [{
    item := o.deliverable, amount, kind := if j ∈ Job.gatherers then "Gather" else j.title }]

namespace Plan

variable (p : Plan σ) (j : Job)

theorem submit_eq (item : ItemId) (amount : UInt32) : p.submit item amount j =
    p.host.attempt (.order [{
      item, amount, kind := if j ∈ Job.gatherers then "Gather" else j.title }]) := by
  rw [submit, Order.new_eq]

/-! ### Commands of leveling -/

/-- An order for what an objective of a class asks for. -/
def IsDeliverable (orders : List Order) : Prop :=
  ∃ o ∈ p.tables.objectivesFor j, o.Asks j orders

/-- The order of the entry that applies at a level. -/
def IsGrind (level : UInt32) (orders : List Order) : Prop :=
  ∃ g, p.tables.bestGrind? j level = some g ∧ orders = [{
    item := g.item, amount := g.amount
    kind := if j ∈ Job.gatherers then "Gather" else j.title }]

/-- A command that pursues an objective: an order for what it asks for, or a part of a meeting. -/
def IsPursuit (o : Objective) (c : Command) : Prop :=
  (∃ orders, o.Asks j orders ∧ c = .order orders) ∨
    ∃ kind : Interaction, kind.IsPart {
      actor := o.actor, objective := o.id, zone := o.zone, place := o.place
      timeout := p.timing.interactionTimeout.toNat * 1000 } c

/-- A command that levels a class. -/
def IsLeveling (c : Command) : Prop :=
  Setup.IsChange j c ∨ (∃ o ∈ p.tables.objectivesFor j, p.IsPursuit j o c) ∨
    ∃ level orders, p.IsGrind j level orders ∧ c = .order orders

/-! ### Parts of a round -/

section Parts

variable (o : Objective)

theorem serves_procure :
    p.Serves (o.Asks j) (p.IsPursuit j o) (p.procure j o) := by
  unfold procure
  split
  · exact Setup.serves_pure _
  · refine (Setup.serves_of_looks (Host.looks_look _)).before ?_
    intro count
    split
    · exact Setup.serves_pure _
    · rw [submit_eq]
      exact Setup.serves_attempt ⟨_, rfl⟩ (.inl ⟨_, ⟨_, rfl⟩, rfl⟩)

theorem serves_acquireObjective :
    p.Serves noOrders (p.IsPursuit j o) (p.acquireObjective o) := by
  refine (Setup.serves_of_looks (Host.looks_look _)).bind ?_
  intro held
  split
  · exact Setup.serves_pure _
  · refine (Setup.serves_interact fun _ hc => .inr ⟨.acquire, hc⟩).bind ?_
    intro outcome
    split
    · exact Setup.serves_pure _
    · exact Setup.serves_cancelled
    · exact Setup.serves_pure _

theorem directed_pursue (s : Session σ) : ∃ result t es, (p.pursue j o).go s = (result, t) ∧
    p.Directed ["Objective"] (o.Asks j) (p.IsPursuit j o) s es result t := by
  refine Setup.Serves.directed ?_ _ _ s
  refine (p.serves_procure j o).bind ?_
  intro procured
  split
  · exact Setup.serves_pure _
  · refine (p.serves_acquireObjective j o).bind ?_
    intro acquired
    split
    · exact Setup.serves_pure _
    · refine (Setup.serves_interact fun _ hc => .inr ⟨.deliver, hc⟩).bind ?_
      intro outcome
      split
      · exact Setup.serves_cancelled
      · exact Setup.serves_pure _

theorem directed_grind {level : UInt32} {g : Grind} (hg : p.tables.bestGrind? j level = some g)
    (s : Session σ) : ∃ result t es, (p.grind j g).go s = (result, t) ∧
      p.Directed ["Grinding"] (p.IsGrind j level) (p.IsLeveling j) s es result t := by
  refine Setup.Serves.directed ?_ _ _ s
  rw [submit_eq]
  exact Setup.serves_attempt ⟨g, hg, rfl⟩ (.inr (.inr ⟨level, _, ⟨g, hg, rfl⟩, rfl⟩))

theorem directed_pursueAny {objective : Option Objective}
    (ho : ∀ o, objective = some o → o ∈ p.tables.objectivesFor j) (s : Session σ) :
    ∃ result t es, (p.pursueAny j objective).go s = (result, t) ∧
      p.Directed ["Objective"] (p.IsDeliverable j) (p.IsLeveling j) s es result t := by
  cases objective with
  | none => exact Setup.directed_pure () s
  | some o =>
    obtain ⟨result, t, es, hgo, hd⟩ := p.directed_pursue j o s
    have hmem := ho o rfl
    refine ⟨result, t, es, hgo, hd.mono (fun _ h => h) ?_ ?_⟩
    · exact fun orders h => ⟨o, hmem, h⟩
    · exact fun c h => .inr (.inl ⟨o, hmem, h⟩)

/-- The last thing done was an order that was not carried out. -/
def EndsRefused (orders : List Order) (es : List Entry) : Prop :=
  ∃ front order refusal, es = front ++ [order, refusal] ∧
    order.event.command? = some (.order orders) ∧ refusal.event = .ended (.order orders) false

/-- How leveling ends because of an entry: its order is the last thing done, and is not carried
out. -/
def IsRefusal (level : UInt32) (es : List Entry) (outcome : LevelingOutcome) : Prop :=
  ∃ g, p.tables.bestGrind? j level = some g ∧ outcome = .orderFailed g.item g.amount ∧
    EndsRefused [{
      item := g.item, amount := g.amount
      kind := if j ∈ Job.gatherers then "Gather" else j.title }] es

theorem EndsRefused.after {orders : List Order} {es : List Entry} (h : EndsRefused orders es)
    (fs : List Entry) : EndsRefused orders (fs ++ es) := by
  obtain ⟨front, order, refusal, rfl, hc, he⟩ := h
  exact ⟨fs ++ front, order, refusal, (List.append_assoc _ _ _).symm, hc, he⟩

variable {p j} in
theorem IsRefusal.after {level : UInt32} {es : List Entry} {outcome : LevelingOutcome}
    (h : p.IsRefusal j level es outcome) (fs : List Entry) :
    p.IsRefusal j level (fs ++ es) outcome := by
  obtain ⟨g, hg, ho, hends⟩ := h
  exact ⟨g, hg, ho, hends.after fs⟩

theorem endsRefused_of_grind {g : Grind} {s t : Session σ} {es : List Entry}
    (hgo : (p.grind j g).go s = (.ok false, t)) (hadds : s.Adds t es) :
    EndsRefused [{
      item := g.item, amount := g.amount
      kind := if j ∈ Job.gatherers then "Gather" else j.title }] es := by
  unfold grind at hgo
  rw [Act.go_bind_ok (Act.go_publishDirective s _ _), submit_eq] at hgo
  obtain ⟨e, ha, -, he⟩ := p.host.adds_of_attempt hgo
  exact ⟨[], e, _, hadds.unique ha, he, rfl⟩

theorem directed_grindAny (level : UInt32) (s : Session σ) : ∃ result t es,
    (p.grindAny j (p.tables.bestGrind? j level)).go s = (result, t) ∧
      p.Directed ["Grinding"] (p.IsGrind j level) (p.IsLeveling j) s es result t ∧
      ∀ outcome, result = .ok (some outcome) → p.IsRefusal j level es outcome := by
  cases hg : p.tables.bestGrind? j level with
  | none =>
    obtain ⟨result, t, es, hgo, hd⟩ := Setup.directed_pure (p := p.toSetup)
      (none : Option LevelingOutcome) s
    exact ⟨result, t, es, hgo, hd, by cases hgo; nofun⟩
  | some g =>
    obtain ⟨result, t, es, hgo, hd⟩ := p.directed_grind j hg s
    unfold grindAny
    cases result with
    | error e =>
      exact ⟨_, t, es, Act.go_bind_error hgo _, { hd with halts := fun e' he => hd.halts e' (by
        cases he; rfl) }, nofun⟩
    | ok success =>
      rw [Act.go_bind_ok hgo]
      cases success with
      | true => exact ⟨_, t, es, rfl, { hd with halts := nofun }, nofun⟩
      | false =>
        refine ⟨_, t, es, rfl, { hd with halts := nofun }, ?_⟩
        intro outcome he
        cases he
        exact ⟨g, hg, rfl, p.endsRefused_of_grind j hgo hd.adds⟩

end Parts

/-! ### Publishing -/

/-- Every class has its level read at some time of the looks. -/
theorem go_levels (js : List Job) (s : Session σ) : ∃ levels t es,
    (p.levels js).go s = (.ok levels, t) ∧ p.host.Glance s t es ∧
      ∀ k ∈ js, ∃ u fs, p.host.Glance u t fs ∧
        levels.lookup k = some (p.host.sees u (.level k)) := by
  induction js generalizing s with
  | nil => exact ⟨[], s, [], rfl, .refl s, by simp⟩
  | cons k js ih =>
    have hk : p.host.Glance s _ _ := Host.glance_asked (.level k)
    obtain ⟨levels, t, es, hgo, hg, hl⟩ := ih (s.asked (.level k) _)
    refine ⟨(k, p.host.sees s (.level k)) :: levels, t, _, ?_, hk.trans hg, ?_⟩
    · show (p.host.look (.level k) >>= fun n => p.levels js >>= _).go s = _
      rw [Act.go_bind_ok (p.host.go_look s _), Act.go_bind_ok hgo]
      rfl
    · intro k' hk'
      by_cases h : k' = k
      · subst h
        exact ⟨s, _, hk.trans hg, List.lookup_cons_self⟩
      · obtain ⟨u, fs, hg', hl'⟩ := hl k' (List.mem_of_ne_of_mem h hk')
        refine ⟨u, fs, hg', ?_⟩
        rw [List.lookup_cons, beq_eq_false_iff_ne.2 h]
        exact hl'

theorem find?_targets (goal : Job → UInt32) (levels : List (Job × UInt32)) :
    ((levels.map fun (k, n) => (⟨k, n, goal k⟩ : Target)).find? (·.job = j)).map (·.current) =
      levels.lookup j := by
  induction levels with
  | nil => rfl
  | cons e levels ih =>
    obtain ⟨k, n⟩ := e
    by_cases h : k = j
    · subst h
      simp
    · have hb : (j == k) = false := beq_eq_false_iff_ne.2 (Ne.symm h)
      rw [List.lookup_cons, hb, List.map_cons, List.find?_cons_of_neg (by simpa using h)]
      exact ih

/-- Levels that are read again are up to date. -/
theorem go_refreshTargets (s : Session σ) : ∃ t es, p.refreshTargets.go s = (.ok (), t) ∧
    s.Adds t es ∧ (∀ e ∈ es, e.event.IsLook) ∧ t.summary = s.summary ∧
      ∀ k, p.host.UpToDate k t := by
  obtain ⟨levels, t, es, hgo, hg, hl⟩ := p.go_levels Job.all s
  unfold refreshTargets
  rw [Act.go_bind_ok hgo]
  refine ⟨_, es, rfl, hg.adds, hg.looks, hg.keeps.summary, ?_⟩
  intro k
  obtain ⟨u, fs, hg', hl'⟩ := hl k (Job.mem_all k)
  refine ⟨u, fs, hg'.adds, fun e he => Event.not_isDeed_of_isLook (hg'.looks e he), ⟨?_, hl'⟩,
    hg'.sees⟩
  rw [← hl']
  exact find?_targets k p.goals.target levels

/-- What a round does in the end: it reads the levels again, and says whether the one of the class
is still the same. -/
def reckon (before : UInt32) : Act σ (Option LevelingOutcome) := do
  p.refreshTargets
  let after ← p.level j
  return if after = before then some (.stalled after) else none

theorem go_reckon (before : UInt32) (s : Session σ) : ∃ outcome t es,
    (p.reckon j before).go s = (.ok outcome, t) ∧ s.Adds t es ∧ (∀ e ∈ es, e.event.IsLook) ∧
      t.summary = s.summary ∧ p.host.UpToDate j t ∧
      (outcome = some (.stalled before) ∧ (reads j es).getLast? = some before ∨
        outcome = none ∧ ∃ after, (reads j es).getLast? = some after ∧ after ≠ before) := by
  obtain ⟨u, es, hgo, ha, hlooks, hsummary, hfresh⟩ := p.go_refreshTargets s
  have hg : p.host.Glance u _ _ := Host.glance_asked (.level j)
  have hlast : (reads j (es ++ [⟨u.now, .asked (.level j) (p.host.sees u (.level j))⟩])).getLast? =
      some (p.host.sees u (.level j)) := by
    rw [reads_append, List.getLast?_append]
    simp [reads, Event.read?]
  unfold reckon Setup.level
  rw [Act.go_bind_ok hgo, Act.go_bind_ok (p.host.go_look u _)]
  refine ⟨_, _, _, rfl, ha.trans hg.adds, List.forall_mem_append.2 ⟨hlooks, hg.looks⟩,
    hg.keeps.summary.trans hsummary, (hfresh j).glance hg, ?_⟩
  by_cases h : p.host.sees u (.level j) = before
  · left
    subst h
    exact ⟨if_pos rfl, hlast⟩
  · right
    exact ⟨if_neg h, _, hlast, h⟩

/-! ### A round -/

/-- How a round at a level ends, and what it leaves published. -/
inductive RoundEnd (before : UInt32) (s : Session σ) (es : List Entry) :
    Except Halt (Option LevelingOutcome) → Session σ → Prop
  /-- Nothing applies, and nothing is done. -/
  | idle {t} : p.host.Glance s t es →
      (Objective.firstEligible? p.host.look before (p.tables.objectivesFor j)).go s = (.ok none, t) →
      p.tables.bestGrind? j before = none → RoundEnd before s es (.ok (some (.noProgress before))) t
  | stopped {e t} : s.Retains t → p.Halts t e → RoundEnd before s es (.error e) t
  | refused {outcome t} : s.Retains t → p.IsRefusal j before es outcome →
      RoundEnd before s es (.ok (some outcome)) t
  /-- The level that was read last is the same. -/
  | stalled {t} : p.host.UpToDate j t → (reads j es).getLast? = some before →
      RoundEnd before s es (.ok (some (.stalled before))) t
  /-- The level that was read last is another one. -/
  | moved {after t} : p.host.UpToDate j t → (reads j es).getLast? = some after →
      after ≠ before → RoundEnd before s es (.ok none) t

/-- Orders of a round at a level: what an objective asks for, under the directive of objectives, or
the order of the entry that applies at the level, under the directive of entries. -/
def IsRoundOrder (before : UInt32) (d : String) (orders : List Order) : Prop :=
  d = "Objective" ∧ p.IsDeliverable j orders ∨ d = "Grinding" ∧ p.IsGrind j before orders

/-- What a round adds is in two parts: an order for what an objective asks for is in the first of
them at most, and the order of an entry in the second. -/
structure IsRound (before : UInt32) (s : Session σ) (es : List Entry)
    (result : Except Halt (Option LevelingOutcome)) (t : Session σ) : Prop where
  works : s.Works ["Objective", "Grinding"] (p.IsLeveling j) es t
  parts : ∃ fs gs, es = fs ++ gs ∧ Hands (p.IsDeliverable j) fs ∧ Hands (p.IsGrind j before) gs
  orders : ∀ e ∈ es, ∀ d orders, e.event.handed? = some (d, orders) → p.IsRoundOrder j before d orders
  ends : p.RoundEnd j before s es result t

variable {p j} in
theorem isRoundOrder_of_looks {before : UInt32} {es : List Entry} (h : ∀ e ∈ es, e.event.IsLook) :
    ∀ e ∈ es, ∀ d orders, e.event.handed? = some (d, orders) → p.IsRoundOrder j before d orders := by
  intro e he d orders ho
  rw [(h e he).handed?_eq_none] at ho
  cases ho

theorem isRound_of_levelRound (before : UInt32) (s : Session σ) : ∃ result t es,
    (p.levelRound j before).go s = (result, t) ∧ p.IsRound j before s es result t := by
  obtain ⟨objective, u, es₁, hgo, hg⟩ :=
    Objective.looks_firstEligible? p.host before (p.tables.objectivesFor j) s
  unfold levelRound
  rw [Act.go_bind_ok hgo]
  by_cases hidle : (objective.isNone && (p.tables.bestGrind? j before).isNone) = true
  · have hnone := Bool.and_eq_true_iff.1 hidle
    rw [Option.isNone_iff_eq_none, Option.isNone_iff_eq_none] at hnone
    refine ⟨_, u, es₁, by rw [if_pos hidle]; rfl, hg.works, ?_, ?_, .idle hg (hnone.1 ▸ hgo) hnone.2⟩
    · exact ⟨es₁, [], by simp, hands_of_looks hg.looks, .of_eq_nil rfl rfl⟩
    · exact isRoundOrder_of_looks hg.looks
  rw [if_neg hidle]
  have hmem : ∀ o, objective = some o → o ∈ p.tables.objectivesFor j := by
    rintro o rfl
    exact Objective.mem_of_firstEligible? p.host hgo
  -- From here on the round is what its objective adds and then what its entry adds; it stops where
  -- either of them stops.
  obtain ⟨result, v, es₂, hgo₂, hd₂⟩ := p.directed_pursueAny j hmem u
  have hworks₂ : s.Works ["Objective", "Grinding"] (p.IsLeveling j) (es₁ ++ es₂) v :=
    hg.works.trans (hd₂.works (by simp) fun _ h => h)
  have hhands₂ : Hands (p.IsDeliverable j) (es₁ ++ es₂) := hd₂.hands.after (hands_of_looks hg.looks)
  have hretains₂ : s.Retains v := hg.keeps.retains.trans hd₂.retains
  have horders₂ : ∀ e ∈ es₁ ++ es₂, ∀ d orders, e.event.handed? = some (d, orders) →
      p.IsRoundOrder j before d orders :=
    List.forall_mem_append.2 ⟨isRoundOrder_of_looks hg.looks,
      fun e he d orders ho => .inl (hd₂.order he ho)⟩
  cases result with
  | error e =>
    refine ⟨_, v, _, Act.go_bind_error hgo₂ _, hworks₂, ?_, horders₂,
      .stopped hretains₂ (hd₂.halts e rfl)⟩
    exact ⟨es₁ ++ es₂, [], by simp, hhands₂, .of_eq_nil rfl rfl⟩
  | ok _ =>
    rw [Act.go_bind_ok hgo₂]
    obtain ⟨result, w, es₃, hgo₃, hd₃, hrefused⟩ := p.directed_grindAny j before v
    have hworks₃ := hworks₂.trans (hd₃.works (by simp) fun _ h => h)
    have hretains₃ : s.Retains w := hretains₂.trans hd₃.retains
    have hparts₃ : ∃ fs gs, es₁ ++ es₂ ++ es₃ = fs ++ gs ∧ Hands (p.IsDeliverable j) fs ∧
        Hands (p.IsGrind j before) gs := ⟨es₁ ++ es₂, es₃, rfl, hhands₂, hd₃.hands⟩
    have horders₃ : ∀ e ∈ es₁ ++ es₂ ++ es₃, ∀ d orders, e.event.handed? = some (d, orders) →
        p.IsRoundOrder j before d orders :=
      List.forall_mem_append.2 ⟨horders₂, fun e he d orders ho => .inr (hd₃.order he ho)⟩
    match result with
    | .error e =>
      exact ⟨_, w, _, Act.go_bind_error hgo₃ _, hworks₃, hparts₃, horders₃,
        .stopped hretains₃ (hd₃.halts e rfl)⟩
    | .ok (some outcome) =>
      refine ⟨.ok (some outcome), w, _, ?_, hworks₃, hparts₃, horders₃,
        .refused hretains₃ ((hrefused outcome rfl).after _)⟩
      rw [Act.go_bind_ok hgo₃]
      rfl
    | .ok none =>
      obtain ⟨outcome, x, es₄, hgo₄, hadds₄, hlooks₄, hsummary₄, hfresh, hend⟩ :=
        p.go_reckon j before w
      refine ⟨.ok outcome, x, _, ?_, hworks₃.trans (.of_looks hadds₄ hlooks₄ hsummary₄), ?_, ?_, ?_⟩
      · rw [Act.go_bind_ok hgo₃]
        exact hgo₄
      · exact ⟨es₁ ++ es₂, es₃ ++ es₄, by simp, hhands₂, hd₃.hands.append (hands_of_looks hlooks₄)⟩
      · exact List.forall_mem_append.2 ⟨horders₃, isRoundOrder_of_looks hlooks₄⟩
      · have hreads {n : UInt32} (hlast : (reads j es₄).getLast? = some n) :
            (reads j (es₁ ++ es₂ ++ es₃ ++ es₄)).getLast? = some n := by
          rw [reads_append, List.getLast?_append, hlast]
          rfl
        obtain ⟨rfl, hlast⟩ | ⟨rfl, after, hlast, hne⟩ := hend
        · exact .stalled hfresh (hreads hlast)
        · exact .moved hfresh (hreads hlast) hne

end Plan
end Progression
