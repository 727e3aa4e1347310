import Progression.Cli.Plan
import Progression.Proofs.Equipping
import Progression.Proofs.Journal
import Progression.Proofs.Unfolding

/-!
What the game shows while it is left to itself, but for looks and for a change of class. `Host.Drifts`
relates an instant to those that come after it so, and a game keeps showing a level and a journal if
it shows them at all of them; a scenario without a script does (`Scenario.keepsShowing`). A change of
class drifts, since it gives no command that takes time, and so does the search for an objective,
which therefore finds what a search in that journal finds.
-/

namespace Progression

variable {σ : Type}

/-- A look, or the beginning of a command of a class; nothing that takes time comes to its end. -/
def Event.AtOnce (C : Command → Prop) : Event → Prop
  | .asked .. => True
  | .did c .. => C c
  | _ => False

theorem Event.atOnce_of_command? {C : Command → Prop} {e : Event} {c : Command}
    (h : e.command? = some c) (hc : C c) : e.AtOnce C := by
  cases e with
  | did => cases h; exact hc
  | _ => cases h

/-! ### What a change of class adds -/

namespace Setup

variable {p : Setup σ} {j : Job} {s t : Session σ} {es : List Entry}

theorem Idles.atOnce {time : Nat} (h : Idles j time es) : ∀ e ∈ es, e.event.AtOnce (IsChange j) := by
  cases h with
  | quiet => simp [Event.AtOnce, Interaction.windowAsked]
  | answers _ he =>
    have hchoose := Event.atOnce_of_command? he.2 (C := IsChange j) (.inr (.inl rfl))
    simpa [Event.AtOnce, Interaction.windowAsked] using hchoose

theorem WaitTurn.atOnce {deadline : Option Nat} {time : Nat} {settled : Option Bool}
    (h : WaitTurn j deadline time es settled) : ∀ e ∈ es, e.event.AtOnce (IsChange j) := by
  cases h with
  | active => simp [Event.AtOnce]
  | expired hi => exact hi.atOnce
  | goesOn hi => exact hi.atOnce

theorem Waits.atOnce {deadline : Option Nat} {time : Nat} {result : Except Halt Bool}
    (h : Waits j deadline time es result t) : ∀ e ∈ es, e.event.AtOnce (IsChange j) := by
  induction h with
  | settled h => exact h.atOnce
  | calledOff h => exact h.atOnce
  | exhausted h => exact h.atOnce
  | goesOn h _ _ ih => exact List.forall_mem_append.2 ⟨h.atOnce, ih⟩

theorem Changes.atOnce {x : Except Halt Bool} (h : p.Changes j s es x t) :
    ∀ e ∈ es, e.event.AtOnce (IsChange j) := by
  cases h with
  | active => simp [Event.AtOnce]
  | calledOff => simp [Event.AtOnce]
  | requests _ he hwaits =>
    have hrequest := Event.atOnce_of_command? he.2 (C := IsChange j) (.inl rfl)
    exact List.forall_mem_cons.2 ⟨trivial, List.forall_mem_cons.2 ⟨hrequest, hwaits.atOnce⟩⟩

variable (p j)

theorem atOnce_of_restAndChange (s : Session σ) : ∃ x v es, (p.restAndChange j).go s = (x, v) ∧
    s.Adds v es ∧ ∀ e ∈ es, e.event.AtOnce (IsChange j) := by
  unfold restAndChange
  have hrest := Act.go_rest s p.timing.switchDelay.toNat
  split at hrest
  · obtain ⟨x, v, es, hgo, hadds, hchanges⟩ := p.changes_of_changeJob j (p.rested s)
    exact ⟨x, v, es, (Act.go_bind_ok hrest _).trans hgo, hadds, hchanges.atOnce⟩
  · exact ⟨_, _, [], Act.go_bind_error hrest _, .refl s, by simp⟩

theorem atOnce_of_switchAndEquip (s : Session σ) : ∃ es,
    s.Adds ((p.switchAndEquip j).go s).2 es ∧ ∀ e ∈ es, e.event.AtOnce (IsChange j) := by
  obtain ⟨x, v, es, hgo, hadds, hes⟩ := p.atOnce_of_restAndChange j s
  rw [switchAndEquip_eq]
  match x with
  | .error e => exact ⟨es, by rw [Act.go_bind_error hgo]; exact hadds, hes⟩
  | .ok false => exact ⟨es, by rw [Act.go_bind_ok hgo]; exact hadds, hes⟩
  | .ok true =>
    obtain ⟨e, hbegun, hgives⟩ := Session.Adds.begun v .equip (p.host.start .equip v.now v.world)
    obtain ⟨slept, t, hgear, hhistory, -⟩ := p.go_putOnGear v
    have hadded : v.Adds t [e] := hhistory.trans hbegun
    refine ⟨es ++ [e], ?_, List.forall_mem_append.2 ⟨hes, ?_⟩⟩
    · rw [(Act.go_bind_ok hgo _).trans hgear]
      exact hadds.trans hadded
    · simpa using Event.atOnce_of_command? hgives.2 (C := IsChange j) (.inr (.inr rfl))

/-- A change that is confirmed is not called off by then. -/
theorem isCancelled_of_switchAndEquip {s t : Session σ}
    (hgo : (p.switchAndEquip j).go s = (.ok true, t)) : t.isCancelled = false := by
  rw [switchAndEquip_eq] at hgo
  obtain ⟨changed, v, -, hgo⟩ := Act.go_bind_eq_ok.1 hgo
  cases changed with
  | false => cases hgo
  | true =>
    obtain ⟨_, w, -, hgo⟩ := Act.go_bind_eq_ok.1 hgo
    obtain ⟨_, t', hrest, hgo⟩ := Act.go_bind_eq_ok.1 hgo
    cases hgo
    rw [Act.go_rest] at hrest
    split at hrest
    · next hslept =>
      cases hrest
      rw [Timeline.sleep_fst] at hslept
      simpa using hslept
    · cases hrest

end Setup

/-! ### Drifting -/

namespace Host

variable (h : Host σ) (j : Job)

/-- From one instant to the next: something is asked, a command of a change of class is begun, or
time passes. -/
inductive Drifts : Instant σ → Instant σ → Prop
  | asked (a : Instant σ) (q : Query) : Drifts a ⟨a.time, (h.ask q a.time a.world).state⟩
  | begun (a : Instant σ) {c : Command} : Setup.IsChange j c →
    Drifts a ⟨a.time, (h.start c a.time a.world).state⟩
  | waited (a : Instant σ) {time : Nat} : a.time ≤ time → Drifts a ⟨time, a.world⟩

/-- From one session to another, the game drifts. -/
def Drifted (s t : Session σ) : Prop := Relation.ReflTransGen (h.Drifts j) s.instant t.instant

/-- The game shows the level of a class, and a journal in which a set of objectives is completed and
none is held. -/
structure Shows (level : UInt32) (completed : List ObjectiveId) (a : Instant σ) : Prop where
  level : (h.tells a (.level j)).run = level
  completed : ∀ id, (h.tells a).isCompleted id = completed.contains id
  held : ∀ id, (h.tells a).isHeld id = false

/-- The game goes on to show so while it drifts. -/
def KeepsShowing (level : UInt32) (completed : List ObjectiveId) (a : Instant σ) : Prop :=
  ∀ b, Relation.ReflTransGen (h.Drifts j) a b → h.Shows j level completed b

variable {h j} {level : UInt32} {completed : List ObjectiveId} {s t u : Session σ}

theorem KeepsShowing.shows (hs : h.KeepsShowing j level completed s.instant) :
    h.Shows j level completed s.instant := hs _ .refl

theorem KeepsShowing.drifted (hs : h.KeepsShowing j level completed s.instant)
    (hd : h.Drifted j s t) : h.KeepsShowing j level completed t.instant :=
  fun b hb => hs b (hd.trans hb)

theorem drifted_asked (s : Session σ) (q : Query) :
    h.Drifted j s (s.asked q (h.ask q s.now s.world)) := by
  refine .single ?_
  unfold Session.instant
  rw [Session.now_asked, Session.world_asked]
  exact .asked s.instant q

variable (h j) in
/-- Work drifts as far as all it adds is done at once. -/
theorem carries_drifted : h.Carries fun s t => ∃ es, s.Adds t es ∧
    ((∀ e ∈ es, e.event.AtOnce (Setup.IsChange j)) → h.Drifted j s t) where
  refl s := ⟨[], .refl s, fun _ => .refl⟩
  trans := by
    rintro s t u ⟨es, hes, hst⟩ ⟨fs, hfs, htu⟩
    refine ⟨es ++ fs, hes.trans hfs, fun hat => ?_⟩
    obtain ⟨hfirst, hthen⟩ := List.forall_mem_append.1 hat
    exact (hst hfirst).trans (htu hthen)
  asked s q := ⟨_, .asked s q _, fun _ => drifted_asked s q⟩
  begun s c := by
    refine ⟨_, .cons (s.history_begun c _) (.refl _), fun hat => .single ?_⟩
    unfold Session.instant
    rw [Session.now_begun, Session.world_begun]
    exact .begun s.instant (hat _ List.mem_cons_self)
  finished s c := ⟨_, .cons (s.history_finished c _) (.refl _), fun hat =>
    (hat _ List.mem_cons_self).elim⟩
  slept s length := ⟨[], .refl s, fun _ =>
    .single (.waited s.instant (Timeline.now_le_sleep s.time s.signal length))⟩
  noted s stage := ⟨_, .cons (s.history_note (.began stage)) (.refl _), fun _ => .refl⟩

/-! ### Choosing by what is shown -/

/-- A look at an objective finds what the journal says. -/
theorem KeepsShowing.go_look_completed (hs : h.KeepsShowing j level completed s.instant)
    (id : ObjectiveId) : ∃ t,
      (h.look (.completed id)).go s = (.ok (completed.contains id), t) ∧ h.Drifted j s t :=
  ⟨_, (h.go_look s _).trans (by rw [← hs.shows.completed id]; rfl), drifted_asked s _⟩

theorem KeepsShowing.go_look_held (hs : h.KeepsShowing j level completed s.instant)
    (id : ObjectiveId) : ∃ t, (h.look (.held id)).go s = (.ok false, t) ∧ h.Drifted j s t :=
  ⟨_, (h.go_look s _).trans (by rw [← hs.shows.held id]; rfl), drifted_asked s _⟩

/-- An objective can be taken in a journal that holds nothing. -/
theorem eligible_completedOnly_iff {n : UInt32} {o : Objective} :
    o.Eligible (Cli.completedOnly completed) n ↔ o.level ≤ n ∧ completed.contains o.id = false ∧
      (o.prerequisite = 0 ∨ completed.contains o.prerequisite = true) := by
  have hcompleted (id : ObjectiveId) :
      (Cli.completedOnly completed).isCompleted id = completed.contains id := rfl
  have hheld (id : ObjectiveId) : (Cli.completedOnly completed).isHeld id = false := rfl
  rw [Objective.eligible_iff, hcompleted, hcompleted, hheld]
  simp

theorem KeepsShowing.go_isEligible (hs : h.KeepsShowing j level completed s.instant) (n : UInt32)
    (o : Objective) : ∃ t, (o.isEligible h.look n).go s =
      (.ok (decide (o.Eligible (Cli.completedOnly completed) n)), t) ∧ h.Drifted j s t := by
  unfold Objective.isEligible
  simp only [eligible_completedOnly_iff, ← UInt32.not_lt]
  by_cases hlevel : n < o.level
  · exact ⟨s, by simp [hlevel], .refl⟩
  obtain ⟨u, hgo, hu⟩ := hs.go_look_completed o.id
  rw [if_neg hlevel, Act.go_bind_ok hgo]
  cases hdone : completed.contains o.id with
  | true => exact ⟨u, by simp, hu⟩
  | false =>
    obtain ⟨v, hgo', hv⟩ := (hs.drifted hu).go_look_held o.id
    have huv := hu.trans hv
    rw [if_neg Bool.false_ne_true, Act.go_bind_ok hgo', if_neg Bool.false_ne_true]
    by_cases hnone : o.prerequisite = 0
    · exact ⟨v, by simp [hlevel, hnone], huv⟩
    · obtain ⟨t, hgo'', ht⟩ := (hs.drifted huv).go_look_completed o.prerequisite
      exact ⟨t, by rw [if_neg hnone, hgo'']; simp [hlevel, hnone], huv.trans ht⟩

/-- The search for an objective finds what a search in the journal finds. -/
theorem KeepsShowing.go_firstEligible? (hs : h.KeepsShowing j level completed s.instant)
    (n : UInt32) (os : List Objective) : ∃ t, (Objective.firstEligible? h.look n os).go s =
      (.ok (os.find? fun o => o.Eligible (Cli.completedOnly completed) n), t) ∧ h.Drifted j s t := by
  induction os generalizing s with
  | nil => exact ⟨s, rfl, .refl⟩
  | cons o os ih =>
    obtain ⟨u, hgo, hu⟩ := hs.go_isEligible n o
    rw [Objective.firstEligible?, Act.go_bind_ok hgo, List.find?_cons]
    cases decide (o.Eligible (Cli.completedOnly completed) n) with
    | true => exact ⟨u, rfl, hu⟩
    | false =>
      obtain ⟨t, hgo', ht⟩ := ih (hs.drifted hu)
      exact ⟨t, hgo', hu.trans ht⟩

end Host

/-- A change of class drifts, whatever comes of it. -/
theorem Setup.drifted_of_switchAndEquip (p : Setup σ) (j : Job) (s : Session σ) :
    p.host.Drifted j s ((p.switchAndEquip j).go s).2 := by
  obtain ⟨es, hadds, hdrifted⟩ := p.along_switchAndEquip (Host.carries_drifted p.host j) j s
  obtain ⟨fs, hadds', hfs⟩ := p.atOnce_of_switchAndEquip j s
  exact hdrifted (hadds.unique hadds' ▸ hfs)

/-! ### Scenarios without a script -/

namespace Scenario

/-- A scenario in which nothing but the active class is going to change by itself, and in which
nothing else answers a change of class. -/
structure Quiet (j : Job) (w : Scenario) : Prop where
  events : ∀ e ∈ w.events, ∀ f ∈ e.effects, ∃ k, f = .activeJob k
  reactions : ∀ r ∈ w.reactions, r.trigger ≠ .changeJob j ∧ r.trigger ≠ .choose .selectYesNo 0

/-- A scenario goes over into a quiet one with the same journal and the same levels. -/
structure Lasts (j : Job) (w w' : Scenario) : Prop where
  held : w'.held = w.held
  completed : w'.completed = w.completed
  levels : w'.levels = w.levels
  quiet : w'.Quiet j

variable {j : Job} {w w' w'' : Scenario}

theorem Quiet.lasts (h : w.Quiet j) : w.Lasts j w := ⟨rfl, rfl, rfl, h⟩

theorem Lasts.trans (h : w.Lasts j w') (h' : w'.Lasts j w'') : w.Lasts j w'' :=
  ⟨h'.held.trans h.held, h'.completed.trans h.completed, h'.levels.trans h.levels, h'.quiet⟩

theorem applyAll_of_activeJob {effects : List Effect} (w : Scenario)
    (h : ∀ f ∈ effects, ∃ k, f = .activeJob k) :
    ∃ k, w.applyAll effects = { w with activeJob := k } := by
  induction effects generalizing w with
  | nil => exact ⟨w.activeJob, rfl⟩
  | cons f effects ih =>
    obtain ⟨⟨k, rfl⟩, heffects⟩ := List.forall_mem_cons.1 h
    obtain ⟨k', hk'⟩ := ih { w with activeJob := k } heffects
    exact ⟨k', hk'⟩

theorem Quiet.catchUp (h : w.Quiet j) (now : Nat) : w.Lasts j (w.catchUp now).1 := by
  have hdue : ∀ f ∈ (w.due now).1, ∃ k, f = .activeJob k := by
    intro f hf
    obtain ⟨e, he, hfe⟩ := List.mem_flatMap.1 hf
    exact h.events e (List.mem_of_mem_filter he) f hfe
  obtain ⟨k, hk⟩ := applyAll_of_activeJob { w with events := (w.due now).2 } hdue
  have hcatch : (w.catchUp now).1 = { w with events := (w.due now).2, activeJob := k } := hk
  rw [hcatch]
  exact ⟨rfl, rfl, rfl, fun e he => h.events e (List.mem_of_mem_filter he), h.reactions⟩

theorem react_of_forall_ne {t : Trigger} {rs : List Reaction} (h : ∀ r ∈ rs, r.trigger ≠ t) :
    react t rs = ([], rs) := by
  induction rs with
  | nil => rfl
  | cons r rs ih =>
    obtain ⟨hr, hrs⟩ := List.forall_mem_cons.1 h
    rw [react, if_neg fun hand => hr hand.1, ih hrs]

theorem fire_of_forall_ne {t : Trigger} (h : ∀ r ∈ w.reactions, r.trigger ≠ t) :
    w.fire t = (w, false) := by
  rw [fire, react_of_forall_ne h]
  rfl

theorem Quiet.requestJob (h : w.Quiet j) (now : Nat) : w.Lasts j (w.requestJob now j) := by
  unfold Scenario.requestJob
  split_ifs
  · exact h.lasts
  · exact ⟨rfl, rfl, rfl, h.events, h.reactions⟩
  · exact ⟨rfl, rfl, rfl, List.forall_mem_append.2 ⟨h.events, by simp⟩, h.reactions⟩
  · exact ⟨rfl, rfl, rfl, h.events, h.reactions⟩

theorem Quiet.chosen (h : w.Quiet j) (k : Window) (option : UInt32) :
    w.Lasts j (w.chosen k option) := by
  unfold Scenario.chosen
  dsimp only [apply]
  split
  · split
    · exact ⟨rfl, rfl, rfl, h.events, h.reactions⟩
    · exact ⟨rfl, rfl, rfl, h.events, h.reactions⟩
  · exact ⟨rfl, rfl, rfl, h.events, h.reactions⟩

theorem Quiet.start (h : w.Quiet j) {c : Command} (hc : Setup.IsChange j c) (now : Nat) :
    w.Lasts j (w.start c now).state := by
  have hcatch := h.catchUp now
  rcases hc with rfl | rfl | rfl
  · have hrequest := hcatch.quiet.requestJob now
    have hfire := fire_of_forall_ne fun r hr => (hrequest.quiet.reactions r hr).1
    have hstate : (w.start (.changeJob j) now).state =
        ((((w.catchUp now).1).requestJob now j).fire (.changeJob j)).1 := rfl
    rw [hstate, hfire]
    exact hcatch.trans hrequest
  · have hchosen := hcatch.quiet.chosen .selectYesNo 0
    have hfire := fire_of_forall_ne fun r hr => (hchosen.quiet.reactions r hr).2
    have hstate : (w.start (.choose .selectYesNo 0) now).state =
        ((((w.catchUp now).1).chosen .selectYesNo 0).fire (.choose .selectYesNo 0)).1 := rfl
    rw [hstate, hfire]
    exact hcatch.trans hchosen
  · exact hcatch

theorem Quiet.drifts {a b : Instant Scenario} (h : a.world.Quiet j)
    (hd : Relation.ReflTransGen (host.Drifts j) a b) : a.world.Lasts j b.world := by
  induction hd with
  | refl => exact h.lasts
  | tail _ hstep ih =>
    refine ih.trans ?_
    cases hstep with
    | asked => exact ih.quiet.catchUp _
    | begun hc => exact ih.quiet.start hc _
    | waited => exact ih.quiet.lasts

/-- A quiet scenario without an objective at hand keeps showing its level and its journal. -/
theorem keepsShowing {completed : List ObjectiveId} (h : w.Quiet j) (hheld : w.held = [])
    (hcompleted : ∀ id, id ∈ completed ↔ id ∈ w.completed) (time : Nat) :
    host.KeepsShowing j (w.levelOf j) completed ⟨time, w⟩ := by
  intro b hb
  have hlasts := h.drifts hb
  have hseen := hlasts.trans (hlasts.quiet.catchUp b.time)
  refine ⟨congrArg (fun levels => (levels.lookup j).getD 0) hseen.levels, fun id => ?_,
    fun id => ?_⟩
  · have hsame : completed.contains id = w.completed.contains id :=
      Bool.eq_iff_iff.2 (by simpa using hcompleted id)
    exact (congrArg (·.contains id) hseen.completed).trans hsame.symm
  · exact (congrArg (·.contains id) hseen.held).trans (by rw [hheld])

end Scenario
end Progression
