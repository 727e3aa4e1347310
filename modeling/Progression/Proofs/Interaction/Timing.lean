import Progression.Proofs.Interaction.Protocol
import Progression.Scenario

/-!
When an interaction acts, and when it ends. Nothing but the clock bounds its rounds: the world may
open windows for ever. A round that goes on was begun before the deadline, and the rest behind it
moves the clock on, so the rounds come to an end with the time that is left (`exists_timely`, by
induction on it). What a round does to the clock is in `RoundTimes`, what a run does in `Timely`.

A wait that would end past the last point in time is cut to thirty years. What is said in ticks is
said for requests whose latest end is a point in time; what is said in gaps holds of all of them.
-/

namespace Progression

variable {σ α β : Type}

/-! ### How long a wait lasts -/

/-- How long a wait takes that is begun at a time and comes to its end. -/
def lasting (now length : Nat) : Nat :=
  if (deadline? now length).isSome then length else longestWait

theorem isSome_deadline? {now length : Nat} :
    (deadline? now length).isSome ↔ (now + length) / 1000 ≤ lastSecond := by
  unfold deadline?
  split <;> simp_all

theorem deadline?_of_isSome {now length : Nat} (h : (deadline? now length).isSome) :
    deadline? now length = some (now + length) := by
  unfold deadline?
  exact if_pos (isSome_deadline?.1 h)

theorem min_le_lasting (now length : Nat) : min length longestWait ≤ lasting now length := by
  unfold lasting
  split
  · exact Nat.min_le_left length longestWait
  · exact Nat.min_le_right length longestWait

/-- A wait that ends before a point in time is not cut. -/
theorem lasting_eq {now length start whole : Nat} (h : (deadline? start whole).isSome)
    (hle : now + length ≤ start + whole) : lasting now length = length := by
  have hdiv : (now + length) / 1000 ≤ (start + whole) / 1000 := Nat.div_le_div_right hle
  exact if_pos (isSome_deadline?.2 (hdiv.trans (isSome_deadline?.1 h)))

namespace Timeline

variable (t : Timeline) (signal length : Nat)

theorem now_sleep_le : (t.sleep signal length).2.now ≤ t.now + lasting t.now length := by
  unfold sleep lasting
  split
  · exact Nat.le_add_right _ _
  · generalize (if (deadline? t.now length).isSome then length else longestWait) = l
    cases t.nextAlarm? signal with
    | none => exact Nat.le_refl _
    | some a =>
      dsimp only
      split
      · rw [now_elapse]
        omega
      · exact Nat.le_refl _

variable {t signal length} in
theorem now_sleep (h : (t.sleep signal length).1 = true) :
    (t.sleep signal length).2.now = t.now + lasting t.now length := by
  unfold sleep lasting at *
  split at h
  · cases h
  · next hr =>
    rw [if_neg hr]
    revert h
    generalize (if (deadline? t.now length).isSome then length else longestWait) = l
    cases t.nextAlarm? signal with
    | none => exact fun _ => rfl
    | some a =>
      dsimp only
      split
      · exact fun h => by cases h
      · exact fun _ => rfl

end Timeline

/-! ### Work that takes no time -/

/-- Work leaves the time as it is. -/
def Act.AtOnce (a : Act σ α) : Prop := ∀ s, (a.go s).2.now = s.now

namespace Act

theorem atOnce_pure (x : α) : (pure x : Act σ α).AtOnce := fun _ => rfl

theorem AtOnce.bind {a : Act σ α} {f : α → Act σ β} (ha : a.AtOnce) (hf : ∀ x, (f x).AtOnce) :
    (a >>= f).AtOnce := by
  intro s
  have hs := ha s
  rcases hr : a.go s with ⟨e | x, t⟩ <;> rw [hr] at hs
  · rw [go_bind_error hr]
    exact hs
  · rw [go_bind_ok hr, hf x t]
    exact hs

end Act

theorem Host.atOnce_look (h : Host σ) (q : Query) : (h.look q).AtOnce := fun s => s.now_asked q _

theorem Host.atOnce_issue (h : Host σ) (c : Command) : (h.issue c).AtOnce :=
  fun s => s.now_begun c _

/-- The journey and the walk of a request take no longer than some time. -/
def Host.ArrivesWithin (h : Host σ) (r : Interaction.Request) (d : Nat) : Prop :=
  ∀ now w, (h.start (.goTo r.zone r.place) now w).delay ≤ d ∧
    (h.start (.approach r.actor) now w).delay ≤ d

theorem Host.now_attempt?_le (h : Host σ) {c : Command} {s : Session σ} {d : Nat}
    (hd : (h.start c s.now s.world).delay ≤ d) (hp : (deadline? s.now d).isSome) :
    ((h.attempt? c).go s).2.now ≤ s.now + d := by
  have hfinish : (some <$> h.finishing c).AtOnce := fun u => u.now_finished c _
  unfold attempt?
  rw [Act.go_bind_ok (Act.go_isCancelled s)]
  cases hc : s.isCancelled with
  | true => exact Nat.le_add_right _ _
  | false =>
    rw [if_neg Bool.false_ne_true, Act.go_bind_ok (h.go_begin s c)]
    generalize hb : h.start c s.now s.world = b at hd
    have hn := s.now_begun c b
    by_cases hz : b.delay = 0
    · rw [if_neg fun hne => hne hz]
      have := hfinish (s.begun c b)
      exact (this.trans hn).trans_le (Nat.le_add_right _ _)
    · rw [if_pos hz, Act.go_bind_ok (Act.go_rest? _ b.delay)]
      have hle := (s.begun c b).time.now_sleep_le (s.begun c b).signal b.delay
      have hlast : lasting (s.begun c b).time.now b.delay = b.delay := by
        refine lasting_eq hp ?_
        show (s.begun c b).now + b.delay ≤ s.now + d
        omega
      have hend : ((s.begun c b).time.sleep (s.begun c b).signal b.delay).2.now ≤ s.now + d := by
        rw [hlast] at hle
        refine hle.trans ?_
        show (s.begun c b).now + b.delay ≤ s.now + d
        omega
      split
      · exact hend
      · exact (hfinish _).trans_le hend

/-! ### When commands are begun -/

/-- The times at which commands among entries are begun, the first one first. -/
def beganAt (es : List Entry) : List Nat :=
  es.filterMap fun e => e.event.command?.map fun _ => e.time

@[simp] theorem beganAt_nil : beganAt [] = [] := rfl

@[simp] theorem beganAt_append (es fs : List Entry) :
    beganAt (es ++ fs) = beganAt es ++ beganAt fs := List.filterMap_append

theorem beganAt_cons_of_none {e : Entry} (h : e.event.command? = none) (es : List Entry) :
    beganAt (e :: es) = beganAt es := by simp [beganAt, h]

theorem Entry.Gives.beganAt_cons {e : Entry} {time : Nat} {c : Command} (h : e.Gives time c)
    (es : List Entry) : beganAt (e :: es) = time :: beganAt es := by
  simp [beganAt, h.1, h.2]

theorem Host.Attempted.beganAt_eq {c : Command} {time : Nat} {t : Session σ} {es : List Entry}
    {x : Option Bool} (h : Host.Attempted c time t es x) :
    beganAt es = [] ∨ beganAt es = [time] := by
  cases h with
  | refused => exact .inl rfl
  | abandoned _ he => exact .inr (he.beganAt_cons [])
  | ended _ he => exact .inr (he.beganAt_cons _)

namespace Interaction

variable {kind : Interaction} {r : Request} {time : Nat} {es : List Entry}

theorem beganAt_map_windowAsked (b : Bool) (time : Nat) (ws : List Window) :
    beganAt (ws.map (windowAsked b time)) = [] := by
  induction ws with
  | nil => rfl
  | cons w ws ih => rw [List.map_cons, beganAt_cons_of_none rfl, ih]

theorem Answers.beganAt_eq (h : kind.Answers r time es) : beganAt es = [time] := by
  obtain ⟨front, w, back, c, e, -, -, he, rfl⟩ := h
  rw [beganAt_append, beganAt_map_windowAsked, beganAt_cons_of_none rfl, he.beganAt_cons]
  rfl

theorem Addresses.beganAt_eq (h : kind.Addresses r time es) : beganAt es = [time] := by
  obtain ⟨e, he, rfl⟩ := h
  rw [beganAt_append, shut, beganAt_map_windowAsked, he.beganAt_cons]
  rfl

end Interaction

namespace Setup

open Interaction

variable {p : Setup σ} {kind : Interaction} {r : Request} {deadline d : Nat} {stage : Stage}
  {s t : Session σ} {es : List Entry} {x : Progress}

/-- A piece of work begins no more than one command, and that at once. -/
theorem Worked.beganAt_eq {time : Nat} (h : p.Worked kind r time t stage es x) :
    beganAt es = [] ∨ beganAt es = [time] := by
  cases h with
  | travels h => exact h.beganAt_eq
  | misses => exact .inl rfl
  | finds => exact .inl rfl
  | approaches h =>
    rw [beganAt_cons_of_none rfl]
    exact h.beganAt_eq
  | answers _ h => exact .inr h.beganAt_eq
  | addresses _ _ h => exact .inr h.beganAt_eq
  | waits => exact .inl (beganAt_map_windowAsked _ _ _)
  | talkedOut => exact .inl (beganAt_map_windowAsked _ _ _)

/-- A turn ends without a command, or it works before the deadline. -/
theorem Turn.beganAt_eq {time : Nat} (h : p.Turn kind r (some deadline) stage time t es x) :
    (beganAt es = [] ∧ ∃ outcome, x = .ended outcome) ∨
      time < deadline ∧ (beganAt es = [] ∨ beganAt es = [time]) := by
  cases h with
  | calledOff => exact .inl ⟨rfl, _, rfl⟩
  | reached => exact .inl ⟨beganAt_cons_of_none (by simp) _, _, rfl⟩
  | reachedLate =>
    rw [beganAt_cons_of_none (by simp), beganAt_cons_of_none (by simp)]
    exact .inl ⟨rfl, _, rfl⟩
  | timedOut =>
    rw [beganAt_cons_of_none (by simp), beganAt_cons_of_none (by simp)]
    exact .inl ⟨rfl, _, rfl⟩
  | works hp hw =>
    rw [beganAt_cons_of_none (by simp)]
    exact .inr ⟨by simpa [isPast] using hp, hw.beganAt_eq⟩

/-! ### The clock in a round -/

section Clock

variable (p kind r)

theorem atOnce_firstOpen? (ws : List Window) : (p.firstOpen? ws).AtOnce := by
  induction ws with
  | nil => exact Act.atOnce_pure none
  | cons w ws ih =>
    refine (p.host.atOnce_look _).bind ?_
    intro isOpen
    split
    · exact Act.atOnce_pure _
    · exact ih

theorem atOnce_converse (stage : Stage) : (p.converse kind r stage).AtOnce := by
  have hissue (c : Command) (x : Progress) : (p.host.issue c >>= fun _ => pure x).AtOnce :=
    (p.host.atOnce_issue c).bind fun _ => Act.atOnce_pure x
  refine (p.atOnce_firstOpen? _).bind ?_
  intro found
  cases found with
  | some w => exact hissue _ _
  | none =>
    cases stage with
    | waiting => exact Act.atOnce_pure _
    | answering =>
      dsimp only
      split
      · exact Act.atOnce_pure _
      · exact hissue _ _
    | start => exact hissue _ _
    | walking => exact hissue _ _
    | facing => exact hissue _ _

variable {r}

theorem now_work_le (hd : p.host.ArrivesWithin r d) (hp : (deadline? s.now d).isSome) :
    ((p.work kind r stage).go s).2.now ≤ s.now + d := by
  have hconverse (stage : Stage) : ((p.converse kind r stage).go s).2.now ≤ s.now + d := by
    rw [p.atOnce_converse kind r stage s]
    exact Nat.le_add_right _ _
  cases stage with
  | start =>
    have hle := p.host.now_attempt?_le (s := s) (hd s.now s.world).1 hp
    unfold work
    obtain ⟨x, t, es, hgo, -⟩ := p.host.attempted_of_attempt? (.goTo r.zone r.place) s
    rw [hgo] at hle
    rw [Act.go_bind_ok hgo]
    rcases x with _ | _ | _ <;> exact hle
  | walking =>
    unfold work
    rw [Act.go_bind_ok (p.host.go_look s (.actor r.actor))]
    generalize p.host.ask (.actor r.actor) s.now s.world = a
    have hn := s.now_asked _ a
    obtain ⟨state, found, raises⟩ := a
    rcases found with _ | _ | _
    · exact hn.trans_le (Nat.le_add_right _ _)
    · generalize hu : s.asked (.actor r.actor) ⟨state, some false, raises⟩ = u at hn
      have hle := p.host.now_attempt?_le (s := u) (hd u.now u.world).2 (by rwa [hn])
      obtain ⟨x, t, es, hgo, -⟩ := p.host.attempted_of_attempt? (.approach r.actor) u
      rw [hgo, hn] at hle
      dsimp only
      rw [Act.go_bind_ok hgo]
      cases x <;> exact hle
    · exact hn.trans_le (Nat.le_add_right _ _)
  | facing => exact hconverse .facing
  | waiting => exact hconverse .waiting
  | answering => exact hconverse .answering

/-- A round takes no time, or it works before the deadline, no longer than work may take. -/
theorem now_round_le (hd : p.host.ArrivesWithin r d) (deadline : Nat) :
    ((p.round kind r (some deadline) stage).go s).2.now = s.now ∨ s.now < deadline ∧
      ((deadline? s.now d).isSome →
        ((p.round kind r (some deadline) stage).go s).2.now ≤ s.now + d) := by
  unfold round
  rw [Act.go_bind_ok (Act.go_isCancelled s)]
  cases hc : s.isCancelled with
  | true => exact .inl rfl
  | false =>
    obtain ⟨b, u, hgo, -, hn⟩ := kind.go_isReached r.objective p.host s
    rw [if_neg Bool.false_ne_true, Act.go_bind_ok hgo]
    cases b with
    | true => exact .inl hn
    | false =>
      rw [if_neg Bool.false_ne_true, Act.go_bind_ok (Act.go_now u), ← hn]
      cases hp : isPast u.now (some deadline) with
      | false => exact .inr ⟨by simpa [isPast] using hp, fun hp => p.now_work_le kind hd hp⟩
      | true =>
        obtain ⟨b, t, hgo', -, hn'⟩ := kind.go_isReached r.objective p.host u
        rw [if_pos rfl, Act.go_bind_ok hgo']
        left
        cases b <;> exact hn'

end Clock

/-! ### Rounds and runs -/

/-- What a round does to the clock, and when it begins a command: it ends the interaction at once,
or it works before the deadline. -/
inductive RoundTimes (deadline d : Nat) (s t : Session σ) : List Entry → Progress → Prop
  | idle {es : List Entry} {outcome : Outcome} : t.now = s.now → beganAt es = [] →
    RoundTimes deadline d s t es (.ended outcome)
  | works {es : List Entry} {x : Progress} : s.now < deadline →
    beganAt es = [] ∨ beganAt es = [s.now] → s.now ≤ t.now →
    ((deadline? s.now d).isSome → t.now ≤ s.now + d) → RoundTimes deadline d s t es x

/-- When a run from a session to another acts and when it ends. -/
structure Timely (p : Setup σ) (deadline d : Nat) (s t : Session σ) (es : List Entry) : Prop where
  adds : s.Adds t es
  began : ∀ time ∈ beganAt es, s.now ≤ time ∧ time < deadline
  /-- Commands are as far from each other as every rest is long that is begun in time. -/
  apart : ∀ wait, (∀ now < deadline, wait ≤ lasting now p.timing.tick.toNat) →
    (beganAt es).Pairwise fun a b => a + wait ≤ b
  late : deadline ≤ s.now → t.now = s.now
  ends : (deadline? deadline (d + p.timing.tick.toNat)).isSome →
    t.now = s.now ∨ t.now < deadline + d + p.timing.tick.toNat

section Runs

variable (hd : p.host.ArrivesWithin r d)

include hd in
theorem exists_roundTimes (kind : Interaction) (deadline : Nat) (stage : Stage) (s : Session σ) :
    ∃ x t es, (p.round kind r (some deadline) stage).go s = (.ok x, t) ∧ s.Adds t es ∧
      RoundTimes deadline d s t es x := by
  obtain ⟨x, t, es, hgo, ha, hn, hturn⟩ := p.turn_of_round kind r (some deadline) stage s
  refine ⟨x, t, es, hgo, ha, ?_⟩
  have hclock := @now_round_le _ p kind _ _ stage s hd deadline
  rw [hgo] at hclock
  rcases hturn.beganAt_eq with ⟨hes, outcome, rfl⟩ | ⟨hlt, hes⟩
  · rcases hclock with heq | ⟨hlt, hle⟩
    · exact .idle heq hes
    · exact .works hlt (.inl hes) hn hle
  · rcases hclock with heq | ⟨-, hle⟩
    · exact .works hlt hes hn fun _ => heq.trans_le (Nat.le_add_right _ _)
    · exact .works hlt hes hn hle

variable {u v : Session σ} {fs : List Entry} {outcome : Outcome}

/-- A time before the deadline leaves room for work and for a rest, if the latest end does. -/
theorem isSome_of_lt {now whole : Nat} (h : (deadline? deadline (d + whole)).isSome)
    (hlt : now < deadline) : (deadline? now d).isSome := by
  have hdiv : (now + d) / 1000 ≤ (deadline + (d + whole)) / 1000 :=
    Nat.div_le_div_right (by omega)
  exact isSome_deadline?.2 (hdiv.trans (isSome_deadline?.1 h))

theorem RoundTimes.began {time : Nat} (h : RoundTimes deadline d s t es x)
    (hm : time ∈ beganAt es) : time = s.now ∧ s.now < deadline := by
  cases h with
  | idle _ hes => simp [hes] at hm
  | works hlt hes =>
    rcases hes with hes | hes
    · simp [hes] at hm
    · exact ⟨by simpa [hes] using hm, hlt⟩

theorem RoundTimes.pairwise {R : Nat → Nat → Prop} (h : RoundTimes deadline d s t es x) :
    (beganAt es).Pairwise R := by
  cases h with
  | idle _ hes => simp [hes]
  | works _ hes => rcases hes with hes | hes <;> simp [hes]

/-- A round that ends the interaction. -/
theorem RoundTimes.timely (h : RoundTimes deadline d s t es (.ended outcome)) (ha : s.Adds t es) :
    p.Timely deadline d s t es where
  adds := ha
  began time hm := by
    obtain ⟨rfl, hlt⟩ := h.began hm
    exact ⟨Nat.le_refl _, hlt⟩
  apart _ _ := h.pairwise
  late hle := by
    cases h with
    | idle hn => exact hn
    | works hlt => omega
  ends hp := by
    cases h with
    | idle hn => exact .inl hn
    | works hlt _ _ hd =>
      have := hd (isSome_of_lt hp hlt)
      omega

/-- A round, and a rest behind it that is called off. -/
theorem RoundTimes.timely_calledOff (h : RoundTimes deadline d s t es (.goesOn stage))
    (ha : s.Adds u es) (hu : u.now ≤ t.now + lasting t.now p.timing.tick.toNat) :
    p.Timely deadline d s u es where
  adds := ha
  began time hm := by
    obtain ⟨rfl, hlt⟩ := h.began hm
    exact ⟨Nat.le_refl _, hlt⟩
  apart _ _ := h.pairwise
  late hle := by
    cases h with
    | works hlt => omega
  ends hp := by
    cases h with
    | works hlt _ _ hd =>
      have hle := hd (isSome_of_lt hp hlt)
      rw [lasting_eq hp (by omega)] at hu
      omega

/-- A round, the rest behind it, and what comes then. -/
theorem RoundTimes.timely_goesOn (h : RoundTimes deadline d s t es (.goesOn stage))
    (ha : s.Adds u es) (hu : u.now = t.now + lasting t.now p.timing.tick.toNat)
    (h' : p.Timely deadline d u v fs) : p.Timely deadline d s v (es ++ fs) where
  adds := ha.trans h'.adds
  began time hm := by
    rw [beganAt_append] at hm
    rcases List.mem_append.1 hm with hm | hm
    · obtain ⟨rfl, hlt⟩ := h.began hm
      exact ⟨Nat.le_refl _, hlt⟩
    · have hb := h'.began time hm
      cases h with
      | works _ _ hn => exact ⟨by omega, hb.2⟩
  apart wait hwait := by
    rw [beganAt_append]
    refine List.pairwise_append.2 ⟨h.pairwise, h'.apart wait hwait, ?_⟩
    intro a hm b hm'
    obtain ⟨rfl, -⟩ := h.began hm
    have hb := h'.began b hm'
    cases h with
    | works _ _ hn =>
      -- The rest was begun before the deadline, as a command came after it.
      have := hwait t.now (by omega)
      omega
  late hle := by
    cases h with
    | works hlt => omega
  ends hp := by
    cases h with
    | works hlt _ _ hd =>
      have hle := hd (isSome_of_lt hp hlt)
      rw [lasting_eq hp (by omega)] at hu
      have := h'.ends hp
      omega

include hd in
/-- An interaction comes to its end by itself, if it may take as many rounds as there are gaps in
the time that is left; more rounds do not change it. -/
theorem exists_timely (kind : Interaction) (hgap : 0 < p.gap) (deadline : Nat) (stage : Stage)
    (s : Session σ) : ∃ outcome t es,
      (∀ rounds, deadline ≤ s.now + rounds * p.gap →
        (p.interactFrom kind r (some deadline) rounds stage).go s = (.ok outcome, t)) ∧
      p.Timely deadline d s t es := by
  induction hk : deadline - s.now using Nat.strong_induction_on generalizing stage s with
  | _ k ih =>
  subst hk
  obtain ⟨x, u, es, hgo, ha, hround⟩ := exists_roundTimes hd kind deadline stage s
  cases x with
  | ended outcome =>
    refine ⟨outcome, u, es, ?_, hround.timely ha⟩
    intro rounds _
    unfold interactFrom
    rw [Act.go_bind_ok hgo]
    rfl
  | goesOn stage' =>
    have hrest := Act.go_rest? u p.timing.tick.toNat
    cases hr : (u.time.sleep u.signal p.timing.tick.toNat).1 with
    | false =>
      rw [hr] at hrest
      refine ⟨.cancelled, u.moveTo (u.time.sleep u.signal p.timing.tick.toNat).2, es, ?_,
        hround.timely_calledOff ha (u.time.now_sleep_le _ _)⟩
      intro rounds _
      unfold interactFrom
      rw [Act.go_bind_ok hgo]
      dsimp only
      rw [Act.go_bind_ok hrest]
      rfl
    | true =>
      rw [hr] at hrest
      generalize hv : u.moveTo (u.time.sleep u.signal p.timing.tick.toNat).2 = v at hrest
      have hnow : v.now = u.now + lasting u.now p.timing.tick.toNat := by
        rw [← hv]
        exact Timeline.now_sleep hr
      have hmin : p.gap ≤ lasting u.now p.timing.tick.toNat := min_le_lasting _ _
      obtain ⟨hlt, hle⟩ : s.now < deadline ∧ s.now ≤ u.now := by
        cases hround with
        | works hlt _ hn => exact ⟨hlt, hn⟩
      obtain ⟨outcome, t, fs, hrun, ht⟩ := ih (deadline - v.now) (by omega) stage' v rfl
      have hav : s.Adds v es := by
        rw [← hv]
        exact ha
      refine ⟨outcome, t, es ++ fs, ?_, hround.timely_goesOn hav hnow ht⟩
      intro rounds hrounds
      cases rounds with
      | zero => omega
      | succ rounds =>
        rw [Nat.add_one_mul] at hrounds
        unfold interactFrom
        rw [Act.go_bind_ok hgo]
        dsimp only
        rw [Act.go_bind_ok hrest]
        exact hrun rounds (by omega)

end Runs

/-! ### Interactions -/

/-- Times that are apart are no more than fit between two bounds. -/
theorem length_le_of_apart {wait lo hi : Nat} {times : List Nat}
    (h : times.Pairwise fun a b => a + wait ≤ b) (hb : ∀ time ∈ times, lo ≤ time ∧ time < hi)
    (hwait : 0 < wait) : times.length ≤ (hi - lo) / wait + 1 := by
  suffices hs : (times.length - 1) * wait ≤ hi - lo by
    have := (Nat.le_div_iff_mul_le hwait).2 hs
    omega
  induction times generalizing lo with
  | nil => simp
  | cons a times ih =>
    obtain ⟨ha, h⟩ := List.pairwise_cons.1 h
    have hlo := hb a List.mem_cons_self
    cases times with
    | nil => simp
    | cons b times =>
      have hab := ha b List.mem_cons_self
      have hhi := hb b (List.mem_cons_of_mem _ List.mem_cons_self)
      have hle := @ih (lo + wait) h fun time hm =>
        ⟨by have := ha time hm; omega, (hb time (List.mem_cons_of_mem _ hm)).2⟩
      simp only [List.length_cons, Nat.add_sub_cancel] at hle ⊢
      rw [Nat.add_one_mul]
      omega

/-- What can be said of when an interaction acts and when it ends. -/
structure EndsInTime (p : Setup σ) (r : Request) (d : Nat) (s t : Session σ) (es : List Entry) :
    Prop where
  adds : s.Adds t es
  /-- No command is begun once the time is up. -/
  began : ∀ time ∈ beganAt es, s.now ≤ time ∧ time < s.now + r.timeout
  /-- Without any time, the interaction ends as it starts. -/
  atOnce : r.timeout = 0 → t.now = s.now ∧ beganAt es = []
  apart : (beganAt es).Pairwise fun a b => a + p.gap ≤ b
  few : (beganAt es).length ≤ r.timeout / p.gap + 1
  /-- Where no wait is cut, the gap is a tick, however long that is, and the interaction ends before
  its time, a tick and a journey are over. -/
  ticks : (deadline? s.now (r.timeout + p.timing.tick.toNat + d)).isSome →
    (beganAt es).Pairwise (fun a b => a + p.timing.tick.toNat ≤ b) ∧
      (beganAt es).length ≤ r.timeout / p.timing.tick.toNat + 1 ∧
      (0 < r.timeout → t.now < s.now + r.timeout + p.timing.tick.toNat + d)

theorem Timely.endsInTime (hgap : 0 < p.gap)
    (h : p.Timely (s.now + r.timeout) d s t es) : p.EndsInTime r d s t es := by
  have hgaps := h.apart p.gap fun _ _ => min_le_lasting _ _
  have htick : 0 < p.timing.tick.toNat := (Nat.lt_min.1 hgap).1
  have htime : s.now + r.timeout - s.now = r.timeout := Nat.add_sub_cancel_left _ _
  refine ⟨h.adds, h.began, ?_, hgaps, ?_, ?_⟩
  · intro hzero
    refine ⟨h.late (by omega), List.eq_nil_iff_forall_not_mem.2 ?_⟩
    intro time hm
    have := h.began time hm
    omega
  · have hfew := length_le_of_apart hgaps h.began hgap
    rwa [htime] at hfew
  · intro hp
    have hticks := h.apart p.timing.tick.toNat fun now hlt =>
      (lasting_eq hp (by omega)).ge
    have hfew := length_le_of_apart hticks h.began htick
    rw [htime] at hfew
    refine ⟨hticks, hfew, ?_⟩
    intro hpos
    have hend := h.ends (isSome_deadline?.2 ?_)
    · omega
    · have hsum : s.now + r.timeout + (d + p.timing.tick.toNat) =
          s.now + (r.timeout + p.timing.tick.toNat + d) := by omega
      rw [hsum]
      exact isSome_deadline?.1 hp

/-! ### The limit on the rounds

A round does not read it: it only says how many of them a run may take.
-/

section Rounds

variable (p : Setup σ) (n : Nat) (kind : Interaction) (r : Request)

theorem firstOpen?_rounds (ws : List Window) :
    ({ p with rounds := n } : Setup σ).firstOpen? ws = p.firstOpen? ws := by
  induction ws with
  | nil => rfl
  | cons w ws ih =>
    unfold firstOpen?
    rw [ih]

theorem work_rounds (stage : Stage) :
    ({ p with rounds := n } : Setup σ).work kind r stage = p.work kind r stage := by
  have hconverse (stage : Stage) :
      ({ p with rounds := n } : Setup σ).converse kind r stage = p.converse kind r stage := by
    unfold converse
    rw [firstOpen?_rounds]
  cases stage with
  | start => rfl
  | walking => rfl
  | facing => exact hconverse .facing
  | waiting => exact hconverse .waiting
  | answering => exact hconverse .answering

theorem interactFrom_rounds (deadline : Option Nat) (rounds : Nat) (stage : Stage) :
    ({ p with rounds := n } : Setup σ).interactFrom kind r deadline rounds stage =
      p.interactFrom kind r deadline rounds stage := by
  have hround (stage : Stage) : ({ p with rounds := n } : Setup σ).round kind r deadline stage =
      p.round kind r deadline stage := by
    unfold round
    rw [work_rounds]
  induction rounds generalizing stage with
  | zero =>
    unfold interactFrom
    rw [hround]
  | succ rounds ih =>
    unfold interactFrom
    simp only [hround, ih]

end Rounds

/-- An interaction always ends in time: whatever the world does, if its journeys take no longer than
they may, the interaction ends by itself, without a limit on its rounds that it would notice. -/
theorem interact_ends_in_time (p : Setup σ) (kind : Interaction) (r : Request) (s : Session σ)
    (d : Nat) (htick : 0 < p.timing.tick) (htimeout : (deadline? s.now r.timeout).isSome)
    (hd : p.host.ArrivesWithin r d) : ∃ outcome t es,
      (∀ rounds, r.timeout ≤ rounds * p.gap →
        (({ p with rounds } : Setup σ).interact kind r).go s = (.ok outcome, t)) ∧
      p.EndsInTime r d s t es := by
  have hgap : 0 < p.gap := Nat.lt_min.2 ⟨UInt64.lt_iff_toNat_lt.1 htick, by decide⟩
  have hdeadline : deadline? s.now r.timeout = some (s.now + r.timeout) := by
    unfold deadline? at *
    split at htimeout
    · next hle => rw [if_pos hle]
    · cases htimeout
  obtain ⟨outcome, t, es, hrun, ht⟩ :=
    exists_timely hd kind hgap (s.now + r.timeout) .start s
  refine ⟨outcome, t, es, ?_, ht.endsInTime hgap⟩
  intro rounds hrounds
  unfold interact
  rw [Act.go_bind_ok (Act.go_now s), hdeadline, interactFrom_rounds]
  exact hrun rounds (by omega)

/-- A host whose journeys take a tenth of a second, and that opens a window for each one answered. -/
def restless : Host Unit where
  ask q _ _ := ⟨(), ({ windows := [.talk] } : Scenario).answer q, false⟩
  start c _ _ := { state := (), delay := if c matches .goTo .. then 100 else 0 }
  finish _ _ _ := ⟨(), true, false⟩

/-- A second with ticks of a quarter of it: the restless host is left in less than 1350 ms, after no
more than five commands. -/
theorem interact_ends_in_time_of_restless : ∃ outcome t es,
    (({ host := restless, timing := {}, rounds := 4 } : Setup Unit).interact .acquire
      ⟨7, 3, 1, default, 1000, none⟩).go { world := () } = (.ok outcome, t) ∧
    (beganAt es).length ≤ 5 ∧ t.now < 1350 := by
  obtain ⟨outcome, t, es, hrun, h⟩ := interact_ends_in_time
    { host := restless, timing := {}, rounds := 0 } .acquire ⟨7, 3, 1, default, 1000, none⟩
    { world := () } 100 (by decide) (by decide) fun _ _ => ⟨Nat.le_refl 100, Nat.zero_le 100⟩
  refine ⟨outcome, t, es, hrun 4 (by decide), h.few, ?_⟩
  exact (h.ticks (by decide)).2.2 (by decide)

end Setup
end Progression
