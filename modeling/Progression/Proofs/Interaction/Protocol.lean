import Mathlib.Data.List.Chain
import Progression.Proofs.Interaction.Course

/-!
The protocol of the commands that one interaction gives: a journey, at most one walk up to the
actor, and a talk in which no address follows another without an answer between them. Each field of
`Protocol` follows from one fact about turns, which is then carried along the course.
-/

namespace Progression

variable {σ : Type}

/-- The commands among entries, the first one first. -/
def given (es : List Entry) : List Command := es.filterMap (·.event.command?)

@[simp] theorem given_nil : given [] = [] := rfl

@[simp] theorem given_append (es fs : List Entry) : given (es ++ fs) = given es ++ given fs :=
  List.filterMap_append

theorem given_cons (e : Entry) (es : List Entry) :
    given (e :: es) = e.event.command?.toList ++ given es := by
  unfold given
  cases h : e.event.command? <;> simp [h]

@[simp] theorem Entry.Gives.given_cons {e : Entry} {time : Nat} {c : Command}
    (h : e.Gives time c) (es : List Entry) : given (e :: es) = c :: given es := by
  rw [Progression.given_cons, h.2]
  rfl

theorem Host.Attempted.given_eq {c : Command} {time : Nat} {t : Session σ} {es : List Entry}
    {x : Option Bool} (h : Host.Attempted c time t es x) :
    (x = none ∧ given es = []) ∨ given es = [c] := by
  cases h with
  | refused => exact .inl ⟨rfl, rfl⟩
  | abandoned _ he => exact .inr (he.given_cons [])
  | ended _ he => exact .inr (he.given_cons _)

namespace Interaction

variable (kind : Interaction) (r : Request)

@[simp] theorem given_goalAsked (id : ObjectiveId) (b : Bool) (time : Nat) (es : List Entry) :
    given (kind.goalAsked id b time :: es) = given es := by simp [given_cons]

@[simp] theorem given_map_windowAsked (b : Bool) (time : Nat) (ws : List Window) :
    given (ws.map (windowAsked b time)) = [] := by
  induction ws with
  | nil => rfl
  | cons w ws ih => rw [List.map_cons, given_cons, ih]; rfl

variable {kind r} in
theorem Answers.given_eq {time : Nat} {es : List Entry} (h : kind.Answers r time es) :
    ∃ w ∈ kind.handlers, ∃ c, Replies r.option w c ∧ given es = [c] := by
  obtain ⟨front, w, back, c, e, hw, hc, he, rfl⟩ := h
  refine ⟨w, by simp [hw], c, hc, ?_⟩
  rw [given_append, given_map_windowAsked, given_cons, he.given_cons]
  rfl

variable {kind r} in
theorem Addresses.given_eq {time : Nat} {es : List Entry} (h : kind.Addresses r time es) :
    given es = [.interact r.actor] := by
  obtain ⟨e, he, rfl⟩ := h
  rw [given_append, shut, given_map_windowAsked, he.given_cons]
  rfl

/-- A command of a talk: the actor is addressed, or a window is answered. -/
def Speaks (c : Command) : Prop :=
  c = .interact r.actor ∨ ∃ w ∈ kind.handlers, Replies r.option w c

/-- A talk: no address follows another without an answer between them. -/
def Talk (cs : List Command) : Prop :=
  (∀ c ∈ cs, kind.Speaks r c) ∧
    cs.IsChain fun c d => ¬ (c = .interact r.actor ∧ d = .interact r.actor)

/-- At most one walk up to the actor, and a talk. -/
def Meeting (cs : List Command) : Prop :=
  ∃ walk talk, cs = walk ++ talk ∧ (walk = [] ∨ walk = [.approach r.actor]) ∧ kind.Talk r talk

/-- What the commands from a stage on look like. -/
def Shape : Stage → List Command → Prop
  | .start, cs => cs = [] ∨ ∃ ds, cs = .goTo r.zone r.place :: ds ∧ kind.Meeting r ds
  | .walking, cs => kind.Meeting r cs
  | .waiting, cs => kind.Talk r cs ∧ ∀ c ∈ cs.head?, c ≠ .interact r.actor
  | .facing, cs => kind.Talk r cs
  | .answering, cs => kind.Talk r cs

/-- The commands from the end of a piece of work on. -/
def ShapeAfter : Progress → List Command → Prop
  | .ended _, cs => cs = []
  | .goesOn stage, cs => kind.Shape r stage cs

variable {kind r}

theorem Talk.nil : kind.Talk r [] := ⟨by simp, .nil⟩

theorem Talk.meeting {cs : List Command} (h : kind.Talk r cs) : kind.Meeting r cs :=
  ⟨[], cs, rfl, .inl rfl, h⟩

theorem Shape.nil (stage : Stage) : kind.Shape r stage [] := by
  cases stage with
  | start => exact .inl rfl
  | walking => exact Talk.nil.meeting
  | waiting => exact ⟨.nil, by simp⟩
  | facing => exact Talk.nil
  | answering => exact Talk.nil

/-- What answers a window is said to the window: it addresses nobody, and goes nowhere. -/
theorem Replies.isSaid {option : Option UInt32} {w : Window} {c : Command}
    (h : Replies option w c) : (∀ actor, c ≠ .interact actor) ∧ (∀ actor, c ≠ .approach actor) ∧
      ∀ zone place, c ≠ .goTo zone place := by
  cases h <;> exact ⟨nofun, nofun, nofun⟩

theorem Talk.answer {w : Window} {c : Command} {cs : List Command} (hw : w ∈ kind.handlers)
    (hc : Replies r.option w c) (h : kind.Talk r cs) : kind.Talk r (c :: cs) := by
  refine ⟨?_, List.isChain_cons.2 ⟨?_, h.2⟩⟩
  · intro d hd
    rcases List.mem_cons.1 hd with rfl | hd
    · exact .inr ⟨w, hw, hc⟩
    · exact h.1 d hd
  · rintro d - ⟨hr, -⟩
    exact hc.isSaid.1 _ hr

theorem Talk.address {cs : List Command} (h : kind.Shape r .waiting cs) :
    kind.Talk r (.interact r.actor :: cs) := by
  refine ⟨?_, List.isChain_cons.2 ⟨?_, h.1.2⟩⟩
  · intro c hc
    rcases List.mem_cons.1 hc with rfl | hc
    · exact .inl rfl
    · exact h.1.1 c hc
  · rintro d hd ⟨-, rfl⟩
    exact h.2 _ hd rfl

end Interaction

namespace Setup

open Interaction

/-- The protocol of the commands of an interaction, whose history is given tick by tick. -/
structure Protocol (p : Setup σ) (kind : Interaction) (r : Request) (deadline : Option Nat)
    (ticks : List (List Entry)) : Prop where
  /-- Nothing, or a journey to the place, then at most one walk up to the actor, then a talk. -/
  shape : given ticks.flatten = [] ∨
    ∃ cs, given ticks.flatten = .goTo r.zone r.place :: cs ∧ kind.Meeting r cs
  /-- Every command after the journey comes after its arrival. -/
  arrives : ∀ before e after c, ticks.flatten = before ++ e :: after →
    e.event.command? = some c → c ≠ .goTo r.zone r.place →
    ∃ x ∈ before, x.event = .ended (.goTo r.zone r.place) true
  /-- A tick gives one command at most. -/
  single : ∀ k ∈ ticks, (given k).length ≤ 1
  /-- Between two ticks time passes. -/
  apart : ticks.Pairwise fun k m => ∀ x ∈ k, ∀ y ∈ m, x.time + p.gap ≤ y.time
  /-- Commands are given in working ticks only: the goal is not reached, the time is not up. -/
  works : ∀ k ∈ ticks, given k ≠ [] → ∃ time es,
    k = kind.goalAsked r.objective false time :: es ∧ ¬ isPast time deadline
  /-- What is answered is the first window of the kind that was found open. -/
  answers : ∀ k ∈ ticks, ∀ w c, Replies r.option w c → c ∈ given k → ∃ time es,
    k = kind.goalAsked r.objective false time :: es ∧ kind.Answers r time es
  /-- The actor is addressed when no window of the kind was found open. -/
  addresses : ∀ k ∈ ticks, .interact r.actor ∈ given k → ∃ time es,
    k = kind.goalAsked r.objective false time :: es ∧ kind.Addresses r time es
  /-- Unless a conversation is to be had, the first working tick after an answer that finds no
  window open addresses the actor again. -/
  reengages : kind ≠ .dialog → ∀ before k between m after w c time,
    ticks = before ++ k :: (between ++ m :: after) → Replies r.option w c → c ∈ given k →
    (∀ x ∈ between, .interact r.actor ∉ given x) →
    m.head? = some (kind.goalAsked r.objective false time) → ¬ isPast time deadline →
    (∀ w ∈ kind.handlers, windowAsked true time w ∉ m) →
    ∃ es, m = kind.goalAsked r.objective false time :: es ∧ kind.Addresses r time es

variable {p : Setup σ} {kind : Interaction} {r : Request} {deadline : Option Nat}

/-! ### The commands of a turn -/

theorem Worked.shape {stage : Stage} {time : Nat} {t : Session σ} {es : List Entry} {x : Progress}
    {cs : List Command} (h : p.Worked kind r time t stage es x) (hx : kind.ShapeAfter r x cs) :
    kind.Shape r stage (given es ++ cs) := by
  cases h with
  | @travels _ x h =>
    rcases h.given_eq with ⟨rfl, hg⟩ | hg
    · cases hx
      exact .inl (by rw [hg]; rfl)
    · refine .inr ⟨cs, by rw [hg]; rfl, ?_⟩
      rcases x with _ | _ | _
      · cases hx; exact Talk.nil.meeting
      · cases hx; exact Talk.nil.meeting
      · exact hx
  | misses => exact hx
  | finds => exact Talk.meeting hx
  | @approaches _ x h =>
    rw [given_cons]
    rcases h.given_eq with ⟨rfl, hg⟩ | hg
    · cases hx
      rw [hg]
      exact Talk.nil.meeting
    · refine ⟨[.approach r.actor], cs, by rw [hg]; rfl, .inr rfl, ?_⟩
      rcases x with _ | _
      · cases hx; exact .nil
      · exact hx
  | answers hs h =>
    obtain ⟨w, hw, c, hc, hg⟩ := h.given_eq
    have := Talk.answer hw hc hx
    rw [hg]
    simp only [List.mem_cons, List.not_mem_nil, or_false] at hs
    rcases hs with rfl | rfl | rfl
    · exact this
    · refine ⟨this, ?_⟩
      intro d hd
      cases hd
      exact hc.isSaid.1 _
    · exact this
  | addresses hs hk h =>
    have := Talk.address hx
    rw [h.given_eq]
    simp only [List.mem_cons, List.not_mem_nil, or_false] at hs
    rcases hs with rfl | rfl
    · exact this
    · exact this
  | waits =>
    rw [shut, given_map_windowAsked]
    exact hx
  | talkedOut hk h =>
    cases hx
    rw [shut, given_map_windowAsked]
    exact Talk.nil

theorem Turn.shape {stage : Stage} {time : Nat} {t : Session σ} {es : List Entry} {x : Progress}
    {cs : List Command} (h : p.Turn kind r deadline stage time t es x)
    (hx : kind.ShapeAfter r x cs) : kind.Shape r stage (given es ++ cs) := by
  cases h with
  | calledOff => cases hx; exact .nil stage
  | reached => cases hx; simpa using Shape.nil stage
  | reachedLate => cases hx; simpa using Shape.nil stage
  | timedOut => cases hx; simpa using Shape.nil stage
  | works _ h => simpa using h.shape hx

theorem Course.shape {stage : Stage} {time : Nat} {ticks : List (List Entry)}
    {result : Except Halt Outcome} {t : Session σ}
    (h : p.Course kind r deadline stage time ticks result t) :
    kind.Shape r stage (given ticks.flatten) := by
  induction h with
  | @ended stage time t es outcome h =>
    have hx : kind.ShapeAfter r (.ended outcome) [] := rfl
    simpa using h.shape hx
  | calledOff h => simpa using h.shape (.nil _)
  | exhausted h => simpa using h.shape (.nil _)
  | goesOn h _ _ _ ih => simpa using h.shape ih

/-! ### One command a tick -/

/-- The commands of a piece of work: none, or one. -/
theorem Worked.given_eq {stage : Stage} {time : Nat} {t : Session σ} {es : List Entry}
    {x : Progress} (h : p.Worked kind r time t stage es x) :
    given es = [] ∨ given es = [.goTo r.zone r.place] ∨ given es = [.approach r.actor] ∨
      kind.Addresses r time es ∨ (kind.Answers r time es ∧ x = .goesOn .answering) := by
  cases h with
  | travels h =>
    rcases h.given_eq with ⟨-, hg⟩ | hg
    · exact .inl hg
    · exact .inr (.inl hg)
  | misses => exact .inl rfl
  | finds => exact .inl rfl
  | approaches h =>
    rw [given_cons]
    rcases h.given_eq with ⟨-, hg⟩ | hg
    · exact .inl hg
    · exact .inr (.inr (.inl hg))
  | answers _ h => exact .inr (.inr (.inr (.inr ⟨h, rfl⟩)))
  | addresses _ _ h => exact .inr (.inr (.inr (.inl h)))
  | waits => exact .inl (given_map_windowAsked _ _ _)
  | talkedOut => exact .inl (given_map_windowAsked _ _ _)

theorem Worked.single {stage : Stage} {time : Nat} {t : Session σ} {es : List Entry} {x : Progress}
    (h : p.Worked kind r time t stage es x) : (given es).length ≤ 1 := by
  rcases h.given_eq with hg | hg | hg | ha | ⟨ha, -⟩
  · simp [hg]
  · simp [hg]
  · simp [hg]
  · simp [ha.given_eq]
  · obtain ⟨w, -, c, -, hg⟩ := ha.given_eq
    simp [hg]

theorem Worked.answers_of_mem {stage : Stage} {time : Nat} {t : Session σ} {es : List Entry}
    {x : Progress} {w : Window} {c : Command} (h : p.Worked kind r time t stage es x)
    (hw : Replies r.option w c) (hc : c ∈ given es) :
    kind.Answers r time es ∧ x = .goesOn .answering := by
  obtain ⟨hi, ha, hg⟩ := hw.isSaid
  rcases h.given_eq with he | he | he | ho | ho
  · simp [he] at hc
  · rw [he, List.mem_singleton] at hc
    exact absurd hc (hg _ _)
  · rw [he, List.mem_singleton] at hc
    exact absurd hc (ha _)
  · rw [ho.given_eq, List.mem_singleton] at hc
    exact absurd hc (hi _)
  · exact ho

theorem Worked.addresses_of_mem {stage : Stage} {time : Nat} {t : Session σ} {es : List Entry}
    {x : Progress} (h : p.Worked kind r time t stage es x)
    (hi : .interact r.actor ∈ given es) : kind.Addresses r time es := by
  rcases h.given_eq with hg | hg | hg | ha | ⟨ha, -⟩
  · simp [hg] at hi
  · simp [hg] at hi
  · simp [hg] at hi
  · exact ha
  · obtain ⟨w, -, c, hc, hg⟩ := ha.given_eq
    rw [hg, List.mem_singleton] at hi
    exact absurd hi.symm (hc.isSaid.1 _)

/-- A turn gives commands only when it works. -/
theorem Turn.works_of_given {stage : Stage} {time : Nat} {t : Session σ} {es : List Entry}
    {x : Progress} (h : p.Turn kind r deadline stage time t es x) (hg : given es ≠ []) :
    ∃ fs, es = kind.goalAsked r.objective false time :: fs ∧ ¬ isPast time deadline ∧
      p.Worked kind r time t stage fs x := by
  cases h with
  | calledOff => exact absurd rfl hg
  | reached => simp at hg
  | reachedLate => simp at hg
  | timedOut => simp at hg
  | works hp h => exact ⟨_, rfl, hp, h⟩

theorem Turn.single {stage : Stage} {time : Nat} {t : Session σ} {es : List Entry} {x : Progress}
    (h : p.Turn kind r deadline stage time t es x) : (given es).length ≤ 1 := by
  by_cases hg : given es = []
  · simp [hg]
  · obtain ⟨fs, rfl, -, hw⟩ := h.works_of_given hg
    rw [given_goalAsked]
    exact hw.single

/-! ### The turns of a course -/

theorem Course.head {stage : Stage} {time : Nat} {k : List Entry} {ticks : List (List Entry)}
    {result : Except Halt Outcome} {t : Session σ}
    (h : p.Course kind r deadline stage time (k :: ticks) result t) :
    ∃ t x, p.Turn kind r deadline stage time t k x := by
  cases h with
  | ended h => exact ⟨_, _, h⟩
  | calledOff h => exact ⟨_, _, h⟩
  | exhausted h => exact ⟨_, _, h⟩
  | goesOn h => exact ⟨_, _, h⟩

/-- A turn that is not the last one of a course goes on. -/
theorem Course.tail {stage : Stage} {time : Nat} {k : List Entry} {ticks : List (List Entry)}
    {result : Except Halt Outcome} {t : Session σ}
    (h : p.Course kind r deadline stage time (k :: ticks) result t) (hne : ticks ≠ []) :
    ∃ stage' time' t', p.Turn kind r deadline stage time t' k (.goesOn stage') ∧
      p.Course kind r deadline stage' time' ticks result t := by
  cases h with
  | ended h => exact absurd rfl hne
  | calledOff h => exact absurd rfl hne
  | exhausted h => exact absurd rfl hne
  | goesOn h _ _ hc => exact ⟨_, _, _, h, hc⟩

theorem Course.drop {stage : Stage} {time : Nat} {k : List Entry} {before ticks : List (List Entry)}
    {result : Except Halt Outcome} {t : Session σ}
    (h : p.Course kind r deadline stage time (before ++ k :: ticks) result t) :
    ∃ stage' time', p.Course kind r deadline stage' time' (k :: ticks) result t := by
  induction before generalizing stage time with
  | nil => exact ⟨_, _, h⟩
  | cons b before ih =>
    obtain ⟨_, _, _, -, hc⟩ := h.tail (by simp)
    exact ih hc

theorem Course.of_mem {stage : Stage} {time : Nat} {ticks : List (List Entry)}
    {result : Except Halt Outcome} {t : Session σ} {k : List Entry}
    (h : p.Course kind r deadline stage time ticks result t) (hk : k ∈ ticks) :
    ∃ stage time t x, p.Turn kind r deadline stage time t k x := by
  obtain ⟨before, after, rfl⟩ := List.append_of_mem hk
  obtain ⟨_, _, hc⟩ := h.drop
  exact ⟨_, _, hc.head⟩

/-! ### The journey comes first -/

theorem Turn.goTo_of_start {time : Nat} {t : Session σ} {es : List Entry} {x : Progress}
    (h : p.Turn kind r deadline .start time t es x) :
    (∀ c ∈ given es, c = .goTo r.zone r.place) ∧ ∀ stage, x = .goesOn stage →
      ∃ e ∈ es, e.event = .ended (.goTo r.zone r.place) true := by
  cases h with
  | calledOff => exact ⟨by simp, fun _ h => by cases h⟩
  | reached => exact ⟨by simp, fun _ h => by cases h⟩
  | reachedLate => exact ⟨by simp, fun _ h => by cases h⟩
  | timedOut => exact ⟨by simp, fun _ h => by cases h⟩
  | works _ hw =>
    rw [given_goalAsked]
    cases hw with
    | @travels es x h =>
      refine ⟨?_, ?_⟩
      · intro c hc
        rcases h.given_eq with ⟨-, hg⟩ | hg
        · simp [hg] at hc
        · simpa [hg] using hc
      · intro stage hx
        cases h with
        | refused => cases hx
        | abandoned => cases hx
        | ended success =>
          cases success with
          | false => cases hx
          | true => exact ⟨_, .tail _ (.tail _ (.head _)), rfl⟩
    | answers hs => simp at hs
    | addresses hs => simp at hs

theorem mem_given {e : Entry} {es : List Entry} {c : Command} (he : e ∈ es)
    (hc : e.event.command? = some c) : c ∈ given es := List.mem_filterMap.2 ⟨e, he, hc⟩

theorem Course.arrives {time : Nat} {ticks : List (List Entry)} {result : Except Halt Outcome}
    {t : Session σ} (h : p.Course kind r deadline .start time ticks result t)
    {before after : List Entry} {e : Entry} {c : Command}
    (ht : ticks.flatten = before ++ e :: after) (he : e.event.command? = some c)
    (hc : c ≠ .goTo r.zone r.place) :
    ∃ x ∈ before, x.event = .ended (.goTo r.zone r.place) true := by
  cases ticks with
  | nil => simp at ht
  | cons k ticks =>
    rw [List.flatten_cons] at ht
    rcases List.append_eq_append_iff.1 ht with ⟨front, rfl, ha⟩ | ⟨front, rfl, ha⟩
    · obtain ⟨_, _, _, hk, -⟩ := h.tail (by rintro rfl; simp at ha)
      obtain ⟨x, hx, hxe⟩ := (hk.goTo_of_start).2 _ rfl
      exact ⟨x, List.mem_append_left _ hx, hxe⟩
    · cases front with
      | nil =>
        rw [List.append_nil] at h
        obtain ⟨_, _, _, hk, -⟩ := h.tail (by rintro rfl; simp at ha)
        exact (hk.goTo_of_start).2 _ rfl
      | cons e' front =>
        -- A command of the first turn is the journey itself.
        obtain ⟨rfl, -⟩ := List.cons.inj ha
        obtain ⟨_, _, hk⟩ := h.head
        exact absurd ((hk.goTo_of_start).1 c (mem_given (by simp) he)) hc

/-! ### Time between ticks -/

theorem Attempted.time_le {c : Command} {time : Nat} {t : Session σ} {es : List Entry}
    {x : Option Bool} (h : Host.Attempted c time t es x) (hn : time ≤ t.now) :
    ∀ e ∈ es, time ≤ e.time ∧ e.time ≤ t.now := by
  cases h with
  | refused => simp
  | abandoned _ he => simpa [he.1] using hn
  | ended _ he => simpa [he.1] using hn

theorem time_windowAsked (b : Bool) (time : Nat) (ws : List Window) :
    ∀ e ∈ ws.map (windowAsked b time), e.time = time := by
  intro e he
  obtain ⟨w, -, rfl⟩ := List.mem_map.1 he
  rfl

theorem Worked.time_le {stage : Stage} {time : Nat} {t : Session σ} {es : List Entry}
    {x : Progress} (h : p.Worked kind r time t stage es x) (hn : time ≤ t.now) :
    ∀ e ∈ es, time ≤ e.time ∧ e.time ≤ t.now := by
  -- All but the end of a journey and of a walk happens at once.
  suffices hs : (∀ e ∈ es, e.time = time) ∨ ∀ e ∈ es, time ≤ e.time ∧ e.time ≤ t.now by
    rcases hs with hs | hs
    · exact fun e he => by rw [hs e he]; exact ⟨Nat.le_refl _, hn⟩
    · exact hs
  cases h with
  | travels h => exact .inr (Attempted.time_le h hn)
  | misses => exact .inl (by simp [actorAsked])
  | finds => exact .inl (by simp [actorAsked])
  | approaches h =>
    right
    intro e he
    rcases List.mem_cons.1 he with rfl | he
    · exact ⟨Nat.le_refl _, hn⟩
    · exact Attempted.time_le h hn e he
  | answers _ h =>
    obtain ⟨front, w, back, c, e, -, -, he, rfl⟩ := h
    refine .inl (List.forall_mem_append.2 ⟨time_windowAsked false time front, ?_⟩)
    simp [windowAsked, he.1]
  | addresses _ _ h =>
    obtain ⟨e, he, rfl⟩ := h
    exact .inl (List.forall_mem_append.2 ⟨time_windowAsked _ _ _, by simp [he.1]⟩)
  | waits => exact .inl (time_windowAsked _ _ _)
  | talkedOut => exact .inl (time_windowAsked _ _ _)

theorem Turn.time_le {stage : Stage} {time : Nat} {t : Session σ} {es : List Entry}
    {x : Progress} (h : p.Turn kind r deadline stage time t es x) (hn : time ≤ t.now) :
    ∀ e ∈ es, time ≤ e.time ∧ e.time ≤ t.now := by
  cases h with
  | calledOff => simp
  | reached => simpa using hn
  | reachedLate => simpa using hn
  | timedOut => simpa using hn
  | works _ h => simpa [hn] using h.time_le hn

theorem Course.apart {stage : Stage} {time : Nat} {ticks : List (List Entry)}
    {result : Except Halt Outcome} {t : Session σ}
    (h : p.Course kind r deadline stage time ticks result t) :
    (∀ k ∈ ticks, ∀ e ∈ k, time ≤ e.time) ∧
      ticks.Pairwise fun k m => ∀ x ∈ k, ∀ y ∈ m, x.time + p.gap ≤ y.time := by
  induction h with
  | ended h hn => simpa using fun e he => (h.time_le hn e he).1
  | calledOff h hn => simpa using fun e he => (h.time_le hn e he).1
  | exhausted h hn => simpa using fun e he => (h.time_le hn e he).1
  | goesOn h hn hg _ ih =>
    refine ⟨?_, List.pairwise_cons.2 ⟨?_, ih.2⟩⟩
    · intro k hk e he
      rcases List.mem_cons.1 hk with rfl | hk
      · exact (h.time_le hn e he).1
      · have := ih.1 k hk e he
        omega
    · intro m hm x hx y hy
      have h1 := (h.time_le hn x hx).2
      have h2 := ih.1 m hm y hy
      omega

/-! ### After an answer -/

theorem Turn.stays_answering {time : Nat} {t : Session σ} {es : List Entry} {stage : Stage}
    (h : p.Turn kind r deadline .answering time t es (.goesOn stage))
    (hg : .interact r.actor ∉ given es) : stage = .answering := by
  cases h with
  | works _ h =>
    rw [given_goalAsked] at hg
    cases h with
    | answers => rfl
    | addresses _ _ h => simp [h.given_eq] at hg

theorem goalAsked_inj {id : ObjectiveId} {b b' : Bool} {time time' : Nat}
    (h : kind.goalAsked id b time = kind.goalAsked id b' time') : b = b' ∧ time = time' := by
  cases kind
  all_goals
    simp only [goalAsked, Entry.mk.injEq, Event.asked.injEq, heq_eq_eq, true_and] at h
    exact ⟨h.2, h.1⟩

theorem Turn.addresses_again {time : Nat} {t : Session σ} {es : List Entry} {x : Progress}
    (h : p.Turn kind r deadline .answering time t es x) (hk : kind ≠ .dialog) {time' : Nat}
    (hh : es.head? = some (kind.goalAsked r.objective false time')) (hp : ¬ isPast time' deadline)
    (hw : ∀ w ∈ kind.handlers, windowAsked true time' w ∉ es) :
    ∃ fs, es = kind.goalAsked r.objective false time' :: fs ∧ kind.Addresses r time' fs := by
  cases h with
  | calledOff => simp at hh
  | reached => cases (goalAsked_inj (Option.some.inj hh)).1
  | reachedLate hp' => cases (goalAsked_inj (Option.some.inj hh)).2; exact absurd hp' hp
  | timedOut hp' => cases (goalAsked_inj (Option.some.inj hh)).2; exact absurd hp' hp
  | works _ h =>
    cases (goalAsked_inj (Option.some.inj hh)).2
    cases h with
    | answers _ h =>
      obtain ⟨front, w, back, c, e, hkw, -, he, rfl⟩ := h
      exact absurd (by simp) (hw w (by simp [hkw]))
    | addresses _ _ h => exact ⟨_, rfl, h⟩
    | talkedOut hd => exact absurd hd hk

theorem Course.reengages {time : Nat} {between after : List (List Entry)} {m : List Entry}
    {result : Except Halt Outcome} {t : Session σ}
    (h : p.Course kind r deadline .answering time (between ++ m :: after) result t)
    (hb : ∀ x ∈ between, .interact r.actor ∉ given x) :
    ∃ time t x, p.Turn kind r deadline .answering time t m x := by
  induction between generalizing time with
  | nil => exact ⟨_, h.head⟩
  | cons k between ih =>
    obtain ⟨stage, _, _, hk, hc⟩ := h.tail (by simp)
    cases hk.stays_answering (hb k (by simp))
    exact ih hc fun x hx => hb x (by simp [hx])

/-! ### The protocol -/

theorem Course.protocol {time : Nat} {ticks : List (List Entry)} {result : Except Halt Outcome}
    {t : Session σ} (h : p.Course kind r deadline .start time ticks result t) :
    p.Protocol kind r deadline ticks where
  shape := h.shape
  arrives _ _ _ _ ht he hc := h.arrives ht he hc
  single k hk := by
    obtain ⟨_, _, _, _, hk⟩ := h.of_mem hk
    exact hk.single
  apart := h.apart.2
  works k hk hg := by
    obtain ⟨_, time, _, _, hk⟩ := h.of_mem hk
    obtain ⟨es, rfl, hp, -⟩ := hk.works_of_given hg
    exact ⟨time, es, rfl, hp⟩
  answers k hk w c hw hc := by
    obtain ⟨_, time, _, _, hk⟩ := h.of_mem hk
    obtain ⟨es, rfl, -, hes⟩ := hk.works_of_given (List.ne_nil_of_mem hc)
    rw [given_goalAsked] at hc
    exact ⟨time, es, rfl, (hes.answers_of_mem hw hc).1⟩
  addresses k hk hi := by
    obtain ⟨_, time, _, _, hk⟩ := h.of_mem hk
    obtain ⟨es, rfl, -, hes⟩ := hk.works_of_given (List.ne_nil_of_mem hi)
    rw [given_goalAsked] at hi
    exact ⟨time, es, rfl, hes.addresses_of_mem hi⟩
  reengages hkind before k between m after w c time ht hw hc hb hh hp ho := by
    subst ht
    obtain ⟨_, _, hcourse⟩ := h.drop
    obtain ⟨_, _, _, hk, hcourse⟩ := hcourse.tail (by simp)
    obtain ⟨es, rfl, -, hes⟩ := hk.works_of_given (List.ne_nil_of_mem hc)
    rw [given_goalAsked] at hc
    cases (hes.answers_of_mem hw hc).2
    obtain ⟨_, _, _, hm⟩ := hcourse.reengages hb
    exact hm.addresses_again hkind hh hp ho

/-- Whatever the world does, an interaction gives its commands by the protocol. -/
theorem interact_follows_protocol (p : Setup σ) (kind : Interaction) (r : Request)
    (s : Session σ) : ∃ result t ticks, (p.interact kind r).go s = (result, t) ∧
      s.Adds t ticks.flatten ∧ p.Protocol kind r (deadline? s.now r.timeout) ticks := by
  obtain ⟨result, t, ticks, hgo, ha, hc⟩ := p.course_of_interact kind r s
  exact ⟨result, t, ticks, hgo, ha, hc.protocol⟩

end Setup
end Progression
