import Progression.Proofs.Interaction.Protocol
import Progression.Scenario

/-!
What the outcome of an interaction says is so. What an interaction knows it has seen: the session it
returns is the one that its last look left, and where looks change nothing that can be seen, what
the last look saw can still be seen there.
-/

namespace Progression

variable {σ : Type}

/-! ### What can be seen -/

namespace Host

variable (h : Host σ)

/-- What the game answers in a session. -/
def sees (s : Session σ) : Oracle Id := fun q => (h.ask q s.now s.world).answer

/-- Looks change nothing that can be seen at the same time. -/
def Steady : Prop := ∀ (q q' : Query) (now : Nat) (w : σ),
  (h.ask q' now (h.ask q now w).state).answer = (h.ask q' now w).answer

variable {h}

theorem Steady.sees_asked (hs : h.Steady) (s : Session σ) (q : Query) :
    h.sees (s.asked q (h.ask q s.now s.world)) = h.sees s := by
  funext q'
  unfold sees
  rw [Session.now_asked, Session.world_asked]
  exact hs q q' s.now s.world

end Host

namespace Scenario

variable (w : Scenario)

@[simp] theorem events_apply (e : Effect) : (w.apply e).events = w.events := by cases e <;> rfl

@[simp] theorem events_applyAll (effects : List Effect) :
    (w.applyAll effects).events = w.events := by
  unfold applyAll
  induction effects generalizing w with
  | nil => rfl
  | cons e effects ih => rw [List.foldl_cons, ih, events_apply]

/-- What is due at a time happens once. -/
theorem catchUp_catchUp (now : Nat) : ((w.catchUp now).1.catchUp now).1 = (w.catchUp now).1 := by
  have hl : (w.catchUp now).1.events = w.events.filter fun e => now < e.time := events_applyAll _ _
  have hd : (w.catchUp now).1.due now = ([], (w.catchUp now).1.events) := by
    unfold due
    simp only [hl, List.filter_filter, Prod.mk.injEq]
    refine ⟨?_, by simp⟩
    rw [List.flatMap_eq_nil_iff]
    intro e he
    simp only [List.mem_filter, Bool.and_eq_true, decide_eq_true_eq] at he
    omega
  rw [catchUp, hd]
  rfl

theorem steady_host : host.Steady := by
  intro q q' now w
  show ((w.catchUp now).1.catchUp now).1.answer q' = (w.catchUp now).1.answer q'
  rw [catchUp_catchUp]

end Scenario

namespace Interaction

variable (kind : Interaction) (h : Host σ) (id : ObjectiveId) (s t : Session σ)

/-- Whether the goal is reached by what the game answers in a session. -/
def isReachedIn : Bool := kind.isReached (h.sees s) id

/-- The last thing done was a look at the goal: it said whether the goal is reached, and where looks
change nothing that can be seen, so it is. -/
def GoalSeen (b : Bool) : Prop :=
  (kind.isReached h.look id).Leaves b t ∧ (h.Steady → kind.isReachedIn h id t = b)

/-- The last thing done was a look at every window of the kind: none was open, and where looks
change nothing that can be seen, none is. -/
def NoneSeenOpen (p : Setup σ) : Prop :=
  (p.firstOpen? kind.windows).Leaves none t ∧
    (p.host.Steady → ∀ w ∈ kind.handlers, (p.host.sees t (.isOpen w) : Bool) = false)

theorem go_isReached_eq : ∃ t,
    (kind.isReached h.look id).go s = (.ok (kind.isReachedIn h id s), t) ∧
      (h.Steady → h.sees t = h.sees s) := by
  cases kind
  all_goals exact ⟨_, h.go_look s _, fun hs => hs.sees_asked s _⟩

variable {kind h id s t}

theorem goalSeen_of_leaves {b : Bool} (hl : (kind.isReached h.look id).Leaves b t) :
    kind.GoalSeen h id t b := by
  refine ⟨hl, ?_⟩
  intro hs
  obtain ⟨s, hgo⟩ := hl
  obtain ⟨t', hgo', hsee⟩ := kind.go_isReached_eq h id s
  rw [hgo'] at hgo
  cases hgo
  unfold isReachedIn
  rw [hsee hs]

theorem sees_of_firstOpen? {p : Setup σ} (hs : p.host.Steady) {ws : List Window}
    (hgo : (p.firstOpen? ws).go s = (.ok none, t)) : p.host.sees t = p.host.sees s ∧
      ∀ w ∈ ws, (p.host.sees t (.isOpen w) : Bool) = false := by
  induction ws generalizing s with
  | nil => cases hgo; exact ⟨rfl, by simp⟩
  | cons w ws ih =>
    unfold Setup.firstOpen? at hgo
    rw [Act.go_bind_ok (p.host.go_look s (.isOpen w))] at hgo
    cases hw : (p.host.ask (.isOpen w) s.now s.world).answer with
    | true => rw [hw] at hgo; cases hgo
    | false =>
      rw [hw] at hgo
      obtain ⟨he, hws⟩ := ih hgo
      rw [hs.sees_asked] at he
      refine ⟨he, ?_⟩
      intro w' hw'
      rcases List.mem_cons.1 hw' with rfl | hw'
      · rw [he]; exact hw
      · exact hws w' hw'

theorem noneSeenOpen_of_leaves {p : Setup σ} (hl : (p.firstOpen? kind.windows).Leaves none t) :
    kind.NoneSeenOpen t p :=
  ⟨hl, fun hs => by
    obtain ⟨s, hgo⟩ := hl
    rw [← windows_eq]
    exact (sees_of_firstOpen? hs hgo).2⟩

end Interaction

namespace Setup

open Interaction

variable {p : Setup σ} {kind : Interaction} {r : Request} {deadline : Option Nat}

/-! ### How courses end -/

/-- What stands behind an outcome: the stage that was begun with, what was added, and the session
in the end. -/
inductive Closing (p : Setup σ) (kind : Interaction) (r : Request) (deadline : Option Nat)
    (stage : Stage) (es : List Entry) (t : Session σ) : Outcome → Prop
  | reached : (kind.isReached p.host.look r.objective).Leaves true t →
    Closing p kind r deadline stage es t .succeeded
  | talkedOut : kind = .dialog →
    (stage = .answering ∨ ∃ w ∈ kind.handlers, ∃ c ∈ given es, Replies r.option w c) →
    (p.firstOpen? kind.windows).Leaves none t → Closing p kind r deadline stage es t .succeeded
  | timedOut : (kind.isReached p.host.look r.objective).Leaves false t → isPast t.now deadline →
    Closing p kind r deadline stage es t .timedOut
  | navigationFailed : stage = .start → given es = [.goTo r.zone r.place] →
    (∃ e ∈ es, e.event = .ended (.goTo r.zone r.place) false) →
    Closing p kind r deadline stage es t .navigationFailed
  | cancelled : t.isCancelled → Closing p kind r deadline stage es t .cancelled

theorem Worked.closing {stage : Stage} {time : Nat} {t : Session σ} {es : List Entry}
    {x : Progress} {outcome : Outcome} (h : p.Worked kind r time t stage es x)
    (hx : x = .ended outcome) : p.Closing kind r deadline stage es t outcome := by
  cases h with
  | travels h =>
    cases h with
    | refused hc => cases hx; exact .cancelled hc
    | abandoned hc => cases hx; exact .cancelled hc
    | ended success he =>
      cases success with
      | true => cases hx
      | false => cases hx; exact .navigationFailed rfl (he.given_cons _) ⟨_, .tail _ (.head _), rfl⟩
  | misses => cases hx
  | finds => cases hx
  | approaches h =>
    cases h with
    | refused hc => cases hx; exact .cancelled hc
    | abandoned hc => cases hx; exact .cancelled hc
    | ended => cases hx
  | answers => cases hx
  | addresses => cases hx
  | waits => cases hx
  | talkedOut hk h => cases hx; exact .talkedOut hk (.inl rfl) h

theorem Turn.closing {stage : Stage} {time : Nat} {t : Session σ} {es : List Entry}
    {outcome : Outcome} (h : p.Turn kind r deadline stage time t es (.ended outcome)) :
    p.Closing kind r deadline stage es t outcome := by
  cases h with
  | calledOff hc => exact .cancelled hc
  | reached h => exact .reached h
  | reachedLate _ h => exact .reached h
  | timedOut hp h hn => exact .timedOut h (by rwa [hn])
  | works _ hw =>
    have hc : p.Closing kind r deadline stage _ t outcome := hw.closing rfl
    cases hc with
    | reached hl => exact .reached hl
    | talkedOut hk hs hl => exact .talkedOut hk (by simpa using hs) hl
    | timedOut hl hp => exact .timedOut hl hp
    | navigationFailed hs hg he =>
      obtain ⟨e, he, hee⟩ := he
      exact .navigationFailed hs (by simpa using hg) ⟨e, .tail _ he, hee⟩
    | cancelled hc => exact .cancelled hc

theorem Worked.goesOn {stage stage' : Stage} {time : Nat} {t : Session σ} {es : List Entry}
    {x : Progress} (h : p.Worked kind r time t stage es x) (hx : x = .goesOn stage') :
    stage' ≠ .start ∧
      (stage' = .answering → ∃ w ∈ kind.handlers, ∃ c ∈ given es, Replies r.option w c) := by
  cases h with
  | @travels _ x =>
    rcases x with _ | _ | _ <;> cases hx
    exact ⟨nofun, nofun⟩
  | @approaches _ x =>
    rcases x with _ | _ <;> cases hx
    exact ⟨nofun, nofun⟩
  | answers _ h =>
    obtain ⟨w, hw, c, hc, hg⟩ := h.given_eq
    cases hx
    exact ⟨nofun, fun _ => ⟨w, hw, c, by simp [hg], hc⟩⟩
  | talkedOut => cases hx
  | misses => cases hx; exact ⟨nofun, nofun⟩
  | finds => cases hx; exact ⟨nofun, nofun⟩
  | addresses => cases hx; exact ⟨nofun, nofun⟩
  | waits => cases hx; exact ⟨nofun, nofun⟩

/-- A turn does not lead back to the start, and to an answered window only by an answer. -/
theorem Turn.goesOn {stage stage' : Stage} {time : Nat} {t : Session σ} {es : List Entry}
    (h : p.Turn kind r deadline stage time t es (.goesOn stage')) : stage' ≠ .start ∧
      (stage' = .answering → ∃ w ∈ kind.handlers, ∃ c ∈ given es, Replies r.option w c) := by
  cases h with
  | works _ h => simpa using h.goesOn rfl

theorem Course.closing {stage : Stage} {time : Nat} {ticks : List (List Entry)}
    {outcome : Outcome} {t : Session σ}
    (h : p.Course kind r deadline stage time ticks (.ok outcome) t) :
    p.Closing kind r deadline stage ticks.flatten t outcome := by
  generalize hr : Except.ok outcome = result at h
  induction h with
  | ended h => cases hr; simpa using h.closing
  | calledOff _ _ hc => cases hr; exact .cancelled hc
  | exhausted => cases hr
  | goesOn h _ _ _ ih =>
    cases ih hr with
    | reached h => exact .reached h
    | talkedOut hk hs hl =>
      refine .talkedOut hk (.inr ?_) hl
      rw [List.flatten_cons, given_append]
      rcases hs with rfl | ⟨w, hw, c, hm, hc⟩
      · obtain ⟨w, hw, c, hm, hc⟩ := h.goesOn.2 rfl
        exact ⟨w, hw, c, List.mem_append_left _ hm, hc⟩
      · exact ⟨w, hw, c, List.mem_append_right _ hm, hc⟩
    | timedOut h hp => exact .timedOut h hp
    | navigationFailed hs => exact absurd hs h.goesOn.1
    | cancelled hc => exact .cancelled hc

/-! ### Truthfulness -/

/-- What an outcome says of the session that an interaction returns. -/
structure Truthful (p : Setup σ) (kind : Interaction) (r : Request) (s t : Session σ)
    (outcome : Outcome) : Prop where
  /-- Success: the goal is reached; or a conversation was had, and no window is open. -/
  succeeded : outcome = .succeeded → kind.GoalSeen p.host r.objective t true ∨
    kind = .dialog ∧ kind.NoneSeenOpen t p ∧
      ∃ es, s.Adds t es ∧ ∃ w ∈ kind.handlers, ∃ c ∈ given es, Replies r.option w c
  /-- Time up: the goal is not reached, and the time is up. -/
  timedOut : outcome = .timedOut →
    kind.GoalSeen p.host r.objective t false ∧ s.now + r.timeout ≤ t.now
  /-- No arrival: the journey failed, and it is the only command. -/
  navigationFailed : outcome = .navigationFailed → ∃ es, s.Adds t es ∧
    given es = [.goTo r.zone r.place] ∧ ∃ e ∈ es, e.event = .ended (.goTo r.zone r.place) false
  cancelled : outcome = .cancelled → t.isCancelled

theorem Closing.truthful {s t : Session σ} {es : List Entry} {outcome : Outcome}
    (h : p.Closing kind r (deadline? s.now r.timeout) .start es t outcome) (ha : s.Adds t es) :
    p.Truthful kind r s t outcome := by
  cases h with
  | reached h => exact ⟨fun _ => .inl (goalSeen_of_leaves h), nofun, nofun, nofun⟩
  | talkedOut hk hs h =>
    have hs := hs.resolve_left nofun
    exact ⟨fun _ => .inr ⟨hk, noneSeenOpen_of_leaves h, es, ha, hs⟩, nofun, nofun, nofun⟩
  | timedOut h hp =>
    refine ⟨nofun, fun _ => ⟨goalSeen_of_leaves h, ?_⟩, nofun, nofun⟩
    unfold deadline? at hp
    split at hp
    · simpa [isPast] using hp
    · cases hp
  | navigationFailed _ hg he => exact ⟨nofun, nofun, fun _ => ⟨es, ha, hg, he⟩, nofun⟩
  | cancelled hc => exact ⟨nofun, nofun, nofun, fun _ => hc⟩

/-- A goal that is reached at the start is found at once. -/
theorem go_interact_of_isReached {s : Session σ} (hc : s.isCancelled = false)
    (hr : kind.isReachedIn p.host r.objective s = true) : ∃ t,
      (p.interact kind r).go s = (.ok .succeeded, t) ∧ t.now = s.now ∧ t.commands = s.commands := by
  obtain ⟨b, t, hgo, ha, hn⟩ := kind.go_isReached r.objective p.host s
  obtain ⟨t', hgo', -⟩ := kind.go_isReached_eq p.host r.objective s
  rw [hr, hgo] at hgo'
  cases hgo'
  refine ⟨t, ?_, hn, by simp [ha.commands]⟩
  have hround : (p.round kind r (deadline? s.now r.timeout) .start).go s =
      (.ok (.ended .succeeded), t) := by
    unfold round
    rw [Act.go_bind_ok (Act.go_isCancelled s), hc, if_neg Bool.false_ne_true, Act.go_bind_ok hgo]
    rfl
  unfold interact
  rw [Act.go_bind_ok (Act.go_now s), interactFrom, Act.go_bind_ok hround]
  rfl

/-- The outcome of an interaction is so, whatever the world does; and a goal that is reached at the
start is found at once. -/
theorem interact_is_truthful (p : Setup σ) (kind : Interaction) (r : Request) (s : Session σ) :
    (∀ outcome t, (p.interact kind r).go s = (.ok outcome, t) → p.Truthful kind r s t outcome) ∧
    (s.isCancelled = false → kind.isReachedIn p.host r.objective s = true →
      ∃ t, (p.interact kind r).go s = (.ok .succeeded, t) ∧ t.now = s.now ∧
        t.commands = s.commands) := by
  refine ⟨?_, go_interact_of_isReached⟩
  intro outcome t hgo
  obtain ⟨result, t', ticks, hgo', ha, hc⟩ := p.course_of_interact kind r s
  rw [hgo] at hgo'
  cases hgo'
  exact hc.closing.truthful ha

/-- A scenario in which an actor opens a window that stays closed once it is answered, before and
after the goal is reached. -/
theorem interact_is_truthful_of_chat :
    let p : Setup Scenario := { host := Scenario.host, timing := {}, rounds := 8 }
    let r : Request := { actor := 3, objective := 7, zone := 1, place := .origin, timeout := 90000 }
    let w : Scenario := { reactions := [⟨.interact 3, [.opens .talk], none⟩] }
    let s : Session Scenario := { world := w }
    let s' : Session Scenario := { world := { w with completed := [7] } }
    p.host.Steady ∧ p.Truthful .dialog r s ((p.interact .dialog r).go s).2 .succeeded ∧
      ∃ t, (p.interact .dialog r).go s' = (.ok .succeeded, t) ∧ t.now = s'.now ∧
        t.commands = s'.commands := by
  intro p r w s s'
  have h : ((p.interact .dialog r).go s).1 = .ok .succeeded := by decide +kernel
  exact ⟨Scenario.steady_host, (interact_is_truthful p .dialog r s).1 _ _ (Prod.ext h rfl),
    (interact_is_truthful p .dialog r s').2 (by decide) (by decide)⟩

end Setup
end Progression
