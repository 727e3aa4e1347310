import Progression.Interaction.Machine
import Progression.Proofs.Work

/-!
The course of an interaction: what its history gains, tick by tick and oldest entry first. `Turn`
lists everything a round can add and what comes of it, and `Course` strings the turns of a run
together. A round and a run are each opened once (`turn_of_round`, `course_of_interactFrom`); what
is proved of interactions is then proved of turns and courses.
-/

namespace Progression

variable {σ : Type}

/-! ### What a session adds to the history of another -/

/-- A session has the history of an earlier one and these entries after it. -/
def Session.Adds (s t : Session σ) (es : List Entry) : Prop := t.history = es.reverse ++ s.history

/-- An entry is the beginning of a command at a time. -/
def Entry.Gives (e : Entry) (time : Nat) (c : Command) : Prop :=
  e.time = time ∧ e.event.command? = some c

namespace Session.Adds

variable {s t u : Session σ} {es fs : List Entry}

theorem refl (s : Session σ) : s.Adds s [] := rfl

theorem trans (h : s.Adds t es) (h' : t.Adds u fs) : s.Adds u (es ++ fs) := by
  unfold Session.Adds at *
  rw [h', h, List.reverse_append, List.append_assoc]

theorem snoc {e : Entry} (h : s.Adds t es) (h' : u.history = e :: t.history) :
    s.Adds u (es ++ [e]) := h.trans h'

theorem cons {e : Entry} (h : t.history = e :: s.history) (h' : t.Adds u es) :
    s.Adds u (e :: es) := trans (show s.Adds t [e] from h) h'

theorem asked (s : Session σ) (q : Query) (a : Replied σ q.Answer) :
    s.Adds (s.asked q a) [⟨s.now, .asked q a.answer⟩] := s.history_asked q a

theorem begun (s : Session σ) (c : Command) (b : Begun σ) :
    ∃ e, s.Adds (s.begun c b) [e] ∧ e.Gives s.now c := ⟨_, s.history_begun c b, rfl, rfl⟩

/-- The commands among the entries are those that are new. -/
theorem commands (h : s.Adds t es) :
    t.commands = (es.filterMap (·.event.command?)).reverse ++ s.commands := by
  unfold Session.commands
  rw [h, List.filterMap_append, List.filterMap_reverse]

end Session.Adds

/-- A session is left by work that came to a result. -/
def Act.Leaves {α : Type} (a : Act σ α) (x : α) (t : Session σ) : Prop := ∃ s, a.go s = (.ok x, t)

/-! ### Commands that may take time -/

namespace Host

variable (h : Host σ)

/-- What comes of a command that may take time. -/
inductive Attempted (c : Command) (time : Nat) (t : Session σ) : List Entry → Option Bool → Prop
  | refused : t.isCancelled → Attempted c time t [] none
  | abandoned {e : Entry} : t.isCancelled → e.Gives time c → Attempted c time t [e] none
  | ended {e : Entry} (success : Bool) : e.Gives time c → time ≤ t.now →
    Attempted c time t [e, ⟨t.now, .ended c success⟩] (some success)

/-- The end of a command that was begun. -/
theorem attempted_of_finishing {c : Command} {s u : Session σ} {e : Entry}
    (he : s.Adds u [e]) (hg : e.Gives s.now c) (hn : s.now ≤ u.now) : ∃ success t es,
    (some <$> h.finishing c).go u = (.ok success, t) ∧ s.Adds t es ∧ s.now ≤ t.now ∧
      Attempted c s.now t es success := by
  generalize hf : h.finish c u.now u.world = f
  have hgo : (some <$> h.finishing c).go u = (.ok (some f.answer), u.finished c f) := by
    rw [← bind_pure_comp, Act.go_bind_ok (h.go_finishing u c), hf, Act.go_pure]
  refine ⟨some f.answer, u.finished c f, _, hgo, he.snoc (u.history_finished c f), by simpa, ?_⟩
  rw [← u.now_finished c f]
  exact .ended f.answer hg (by simpa)

theorem attempted_of_attempt? (c : Command) (s : Session σ) : ∃ success t es,
    (h.attempt? c).go s = (.ok success, t) ∧ s.Adds t es ∧ s.now ≤ t.now ∧
      Attempted c s.now t es success := by
  unfold attempt?
  rw [Act.go_bind_ok (Act.go_isCancelled s)]
  cases hc : s.isCancelled with
  | true => exact ⟨none, s, [], rfl, .refl s, Nat.le_refl _, .refused hc⟩
  | false =>
    rw [if_neg Bool.false_ne_true, Act.go_bind_ok (h.go_begin s c)]
    generalize hb : h.start c s.now s.world = b
    obtain ⟨e, he, hg⟩ := Session.Adds.begun s c b
    by_cases hd : b.delay = 0
    · rw [if_neg fun hne => hne hd]
      exact h.attempted_of_finishing he hg (by simp)
    · rw [if_pos hd, Act.go_bind_ok (Act.go_rest? _ b.delay)]
      have hn := Nat.le_trans (Nat.le_of_eq (s.now_begun c b).symm)
        (Timeline.now_le_sleep (s.begun c b).time (s.begun c b).signal b.delay)
      have hs := Timeline.sleep_fst (s.begun c b).time (s.begun c b).signal b.delay
      cases hr : ((s.begun c b).time.sleep (s.begun c b).signal b.delay).1 with
      | false =>
        rw [hr] at hs
        exact ⟨none, _, [e], rfl, he, hn, .abandoned (by simpa using hs) hg⟩
      | true => exact h.attempted_of_finishing (u := (s.begun c b).moveTo _) he hg hn

/-- A command whose success is known was given and came to its end. -/
theorem adds_of_attempt {c : Command} {success : Bool} {s t : Session σ}
    (hgo : (h.attempt c).go s = (.ok success, t)) :
    ∃ e, s.Adds t [e, ⟨t.now, .ended c success⟩] ∧ e.Gives s.now c := by
  obtain ⟨x, u, es, hgo', ha, -, hend⟩ := h.attempted_of_attempt? c s
  obtain ⟨x', u', hu, hgo⟩ := Act.go_bind_eq_ok.1 hgo
  rw [hgo'] at hu
  cases hu
  cases hend with
  | refused => cases hgo
  | abandoned => cases hgo
  | ended _ he => cases hgo; exact ⟨_, ha, he⟩

end Host

/-! ### Looks -/

namespace Interaction

variable (kind : Interaction) (id : ObjectiveId) (h : Host σ) (s : Session σ)

/-- A look at the goal. -/
def goalAsked (b : Bool) (time : Nat) : Entry :=
  match kind with
  | acquire => ⟨time, .asked (.held id) b⟩
  | deliver | dialog => ⟨time, .asked (.completed id) b⟩

/-- A look at a window. -/
def windowAsked (isOpen : Bool) (time : Nat) (w : Window) : Entry :=
  ⟨time, .asked (.isOpen w) isOpen⟩

/-- A look for an actor. -/
def actorAsked (actor : ActorId) (found : Option Bool) (time : Nat) : Entry :=
  ⟨time, .asked (.actor actor) found⟩

/-- What answers a window: a question its first choice, a list the option asked for or else its first
one, and any other window that it is gone on from. -/
inductive Replies (option : Option UInt32) : Window → Command → Prop
  | confirms : Replies option .selectYesNo (.choose .selectYesNo 0)
  | picks : Replies option .selectString (.choose .selectString (option.getD 0))
  | advances {w : Window} : w ≠ .selectYesNo → w ≠ .selectString → Replies option w (.advance w)

theorem replies_iff {option : Option UInt32} {w : Window} {c : Command} :
    Replies option w c ↔ c = reply option w := by
  constructor
  · rintro (_ | _ | ⟨hy, hs⟩)
    · rfl
    · rfl
    · cases w with
      | selectYesNo => exact absurd rfl hy
      | selectString => exact absurd rfl hs
      | _ => rfl
  · rintro rfl
    cases w with
    | selectYesNo => exact .confirms
    | selectString => exact .picks
    | _ => exact .advances nofun nofun

theorem replies_reply (option : Option UInt32) (w : Window) : Replies option w (reply option w) :=
  replies_iff.2 rfl

/-- The windows that an interaction answers, the most urgent first: a conversation's, and besides them
a reward's and a handover's as far as it comes to these. -/
def handlers : Interaction → List Window
  | acquire => [.talk, .selectYesNo, .selectString, .journalAccept]
  | dialog => [.talk, .selectYesNo, .selectString, .journalAccept, .journalResult]
  | deliver => [.talk, .selectYesNo, .selectString, .journalAccept, .journalResult, .request]

theorem windows_eq : kind.windows = kind.handlers := by cases kind <;> rfl

/-- The entries of an answer: the windows before the first open one, that one, and the reply. -/
def Answers (r : Request) (time : Nat) (es : List Entry) : Prop :=
  ∃ front w back c e, kind.handlers = front ++ w :: back ∧ Replies r.option w c ∧ e.Gives time c ∧
    es = front.map (windowAsked false time) ++ [windowAsked true time w, e]

/-- The entries of a search that finds no window open. -/
def shut (time : Nat) : List Entry := kind.handlers.map (windowAsked false time)

/-- The entries of an address: no window is open, and the actor is addressed. -/
def Addresses (r : Request) (time : Nat) (es : List Entry) : Prop :=
  ∃ e, e.Gives time (.interact r.actor) ∧ es = kind.shut time ++ [e]

theorem go_isReached : ∃ b t, (kind.isReached h.look id).go s = (.ok b, t) ∧
    s.Adds t [kind.goalAsked id b s.now] ∧ t.now = s.now := by
  cases kind
  all_goals exact ⟨_, _, h.go_look s _, .asked s _ _, s.now_asked _ _⟩

@[simp] theorem command?_goalAsked (b : Bool) (time : Nat) :
    (kind.goalAsked id b time).event.command? = none := by cases kind <;> rfl

@[simp] theorem time_goalAsked (b : Bool) (time : Nat) :
    (kind.goalAsked id b time).time = time := by cases kind <;> rfl

end Interaction

namespace Setup

open Interaction

variable (p : Setup σ) (kind : Interaction) (r : Request)

/-- A search for an open window stops at the first one. -/
theorem go_firstOpen? (ws : List Window) (s : Session σ) : ∃ x t es,
    (p.firstOpen? ws).go s = (.ok x, t) ∧ s.Adds t es ∧ t.now = s.now ∧
      ((x = none ∧ es = ws.map (windowAsked false s.now)) ∨
        ∃ front w back, x = some w ∧ ws = front ++ w :: back ∧
          es = front.map (windowAsked false s.now) ++ [windowAsked true s.now w]) := by
  induction ws generalizing s with
  | nil => exact ⟨none, s, [], rfl, .refl s, rfl, .inl ⟨rfl, rfl⟩⟩
  | cons w ws ih =>
    unfold firstOpen?
    rw [Act.go_bind_ok (p.host.go_look s (.isOpen w))]
    generalize p.host.ask (.isOpen w) s.now s.world = a
    obtain ⟨state, isOpen, raises⟩ := a
    cases isOpen with
    | true => exact ⟨some w, _, _, rfl, .asked s _ _, by simp, .inr ⟨[], w, ws, rfl, rfl, rfl⟩⟩
    | false =>
      obtain ⟨x, t, es, hgo, ha, hn, hes⟩ := ih (s.asked (.isOpen w) ⟨state, false, raises⟩)
      rw [Session.now_asked] at hn hes
      refine ⟨x, t, _, hgo, ha.cons (s.history_asked _ _), hn, ?_⟩
      rcases hes with ⟨rfl, rfl⟩ | ⟨front, w', back, rfl, rfl, rfl⟩
      · exact .inl ⟨rfl, rfl⟩
      · exact .inr ⟨w :: front, w', back, rfl, rfl, rfl⟩

/-! ### A round -/

/-- What comes of a journey. -/
def travelled : Option Bool → Progress
  | none => .ended .cancelled
  | some false => .ended .navigationFailed
  | some true => .goesOn .walking

/-- What comes of a walk up to the actor. -/
def approached : Option Bool → Progress
  | none => .ended .cancelled
  | some _ => .goesOn .facing

/-- What a piece of work at a stage adds, from a time on, and what comes of it. -/
inductive Worked (time : Nat) (t : Session σ) : Stage → List Entry → Progress → Prop
  | travels {es : List Entry} {x : Option Bool} :
    Host.Attempted (.goTo r.zone r.place) time t es x → Worked time t .start es (travelled x)
  | misses : Worked time t .walking [actorAsked r.actor none time] (.goesOn .walking)
  | finds : Worked time t .walking [actorAsked r.actor (some true) time] (.goesOn .facing)
  | approaches {es : List Entry} {x : Option Bool} :
    Host.Attempted (.approach r.actor) time t es x →
    Worked time t .walking (actorAsked r.actor (some false) time :: es) (approached x)
  | answers {stage : Stage} {es : List Entry} : stage ∈ [.facing, .waiting, .answering] →
    kind.Answers r time es → Worked time t stage es (.goesOn .answering)
  | addresses {stage : Stage} {es : List Entry} : stage ∈ [.facing, .answering] →
    (kind = .dialog → stage = .facing) → kind.Addresses r time es →
    Worked time t stage es (.goesOn .waiting)
  | waits : Worked time t .waiting (kind.shut time) (.goesOn .waiting)
  | talkedOut : kind = .dialog → (p.firstOpen? kind.windows).Leaves none t →
    Worked time t .answering (kind.shut time) (.ended .succeeded)

/-- A command that takes no time, after other entries. -/
theorem go_issue_adds {s u : Session σ} {es : List Entry} (ha : s.Adds u es) (hn : u.now = s.now)
    (c : Command) (x : Progress) : ∃ t e, (do p.host.issue c; return x : Act σ Progress).go u =
      (.ok x, t) ∧ s.Adds t (es ++ [e]) ∧ s.now ≤ t.now ∧ e.Gives s.now c := by
  rw [Act.go_bind_ok (p.host.go_issue u c), Act.go_pure]
  obtain ⟨e, he, hg⟩ := Session.Adds.begun u c (p.host.start c u.now u.world)
  rw [hn] at hg
  exact ⟨_, e, rfl, ha.trans he, by simp [hn], hg⟩

theorem worked_of_converse (stage : Stage) (hs : stage ∈ [.facing, .waiting, .answering])
    (s : Session σ) : ∃ x t es, (p.converse kind r stage).go s = (.ok x, t) ∧ s.Adds t es ∧
      s.now ≤ t.now ∧ p.Worked kind r s.now t stage es x := by
  unfold converse
  obtain ⟨x, u, es, hgo, ha, hn, ⟨rfl, rfl⟩ | ⟨front, w, back, rfl, hw, rfl⟩⟩ :=
    p.go_firstOpen? kind.windows s
  · rw [windows_eq] at ha
    rw [Act.go_bind_ok hgo]
    cases stage with
    | start => simp at hs
    | walking => simp at hs
    | facing =>
      obtain ⟨t, e, hgo', ha', hn', he⟩ := p.go_issue_adds ha hn (.interact r.actor)
        (.goesOn .waiting)
      exact ⟨_, t, _, hgo', ha', hn', .addresses (by simp) (fun _ => rfl) ⟨e, he, rfl⟩⟩
    | waiting => exact ⟨_, u, _, rfl, ha, by omega, .waits⟩
    | answering =>
      by_cases hk : kind = .dialog
      · rw [if_pos hk]
        exact ⟨_, u, _, rfl, ha, by omega, .talkedOut hk ⟨s, hgo⟩⟩
      · rw [if_neg hk]
        obtain ⟨t, e, hgo', ha', hn', he⟩ := p.go_issue_adds ha hn (.interact r.actor)
          (.goesOn .waiting)
        exact ⟨_, t, _, hgo', ha', hn', .addresses (by simp) (fun h => absurd h hk)
          ⟨e, he, rfl⟩⟩
  · rw [windows_eq] at hw
    rw [Act.go_bind_ok hgo]
    obtain ⟨t, e, hgo', ha', hn', he⟩ := p.go_issue_adds ha hn (reply r.option w)
      (.goesOn .answering)
    refine ⟨_, t, _, hgo', ha', hn',
      .answers hs ⟨front, w, back, _, e, hw, replies_reply r.option w, he, ?_⟩⟩
    rw [List.append_assoc]
    rfl

theorem worked_of_work (stage : Stage) (s : Session σ) : ∃ x t es,
    (p.work kind r stage).go s = (.ok x, t) ∧ s.Adds t es ∧ s.now ≤ t.now ∧
      p.Worked kind r s.now t stage es x := by
  cases stage with
  | start =>
    obtain ⟨x, t, es, hgo, ha, hn, hx⟩ := p.host.attempted_of_attempt? (.goTo r.zone r.place) s
    refine ⟨travelled x, t, es, ?_, ha, hn, .travels hx⟩
    unfold work
    rw [Act.go_bind_ok hgo]
    rcases x with _ | _ | _ <;> rfl
  | walking =>
    unfold work
    rw [Act.go_bind_ok (p.host.go_look s (.actor r.actor))]
    generalize p.host.ask (.actor r.actor) s.now s.world = a
    have ha := Session.Adds.asked s _ a
    have hn := s.now_asked _ a
    obtain ⟨state, found, raises⟩ := a
    rcases found with _ | _ | _
    · exact ⟨_, _, _, rfl, ha, by omega, .misses⟩
    · obtain ⟨x, t, es, hgo, ha', hn', hx⟩ := p.host.attempted_of_attempt? (.approach r.actor)
        (s.asked (.actor r.actor) ⟨state, some false, raises⟩)
      rw [hn] at hx
      refine ⟨approached x, t, _, ?_, ha.trans ha', by omega, .approaches hx⟩
      dsimp only
      rw [Act.go_bind_ok hgo]
      cases x <;> rfl
    · exact ⟨_, _, _, rfl, ha, by omega, .finds⟩
  | facing => exact p.worked_of_converse kind r .facing (by simp) s
  | waiting => exact p.worked_of_converse kind r .waiting (by simp) s
  | answering => exact p.worked_of_converse kind r .answering (by simp) s

/-- What a round at a stage adds, from a time on, and what comes of it. -/
inductive Turn (deadline : Option Nat) (stage : Stage) (time : Nat) (t : Session σ) :
    List Entry → Progress → Prop
  | calledOff : t.isCancelled → Turn deadline stage time t [] (.ended .cancelled)
  | reached : (kind.isReached p.host.look r.objective).Leaves true t → t.now = time →
    Turn deadline stage time t [kind.goalAsked r.objective true time] (.ended .succeeded)
  | reachedLate : isPast time deadline →
    (kind.isReached p.host.look r.objective).Leaves true t →
    Turn deadline stage time t
      [kind.goalAsked r.objective false time, kind.goalAsked r.objective true time]
      (.ended .succeeded)
  | timedOut : isPast time deadline → (kind.isReached p.host.look r.objective).Leaves false t →
    t.now = time →
    Turn deadline stage time t
      [kind.goalAsked r.objective false time, kind.goalAsked r.objective false time]
      (.ended .timedOut)
  | works {es : List Entry} {x : Progress} : ¬ isPast time deadline →
    p.Worked kind r time t stage es x →
    Turn deadline stage time t (kind.goalAsked r.objective false time :: es) x

theorem turn_of_round (deadline : Option Nat) (stage : Stage) (s : Session σ) : ∃ x t es,
    (p.round kind r deadline stage).go s = (.ok x, t) ∧ s.Adds t es ∧ s.now ≤ t.now ∧
      p.Turn kind r deadline stage s.now t es x := by
  unfold round
  rw [Act.go_bind_ok (Act.go_isCancelled s)]
  cases hc : s.isCancelled with
  | true => exact ⟨_, s, [], rfl, .refl s, Nat.le_refl _, .calledOff hc⟩
  | false =>
    obtain ⟨b, u, hgo, hu, hn⟩ := kind.go_isReached r.objective p.host s
    rw [if_neg Bool.false_ne_true, Act.go_bind_ok hgo]
    cases b with
    | true => exact ⟨_, u, _, rfl, hu, by omega, .reached ⟨s, hgo⟩ hn⟩
    | false =>
      rw [if_neg Bool.false_ne_true, Act.go_bind_ok (Act.go_now u), hn]
      cases hp : isPast s.now deadline with
      | false =>
        obtain ⟨x, t, es, hgo', ha, hn', hw⟩ := p.worked_of_work kind r stage u
        rw [hn] at hw
        exact ⟨x, t, _, hgo', hu.trans ha, by omega, .works (by simp [hp]) hw⟩
      | true =>
        obtain ⟨b, t, hgo', ht, hn'⟩ := kind.go_isReached r.objective p.host u
        rw [if_pos rfl, Act.go_bind_ok hgo']
        rw [hn] at ht hn'
        cases b with
        | true => exact ⟨_, t, _, rfl, hu.trans ht, by omega, .reachedLate hp ⟨u, hgo'⟩⟩
        | false => exact ⟨_, t, _, rfl, hu.trans ht, by omega, .timedOut hp ⟨u, hgo'⟩ hn'⟩

/-! ### A run -/

/-- The least time between two rounds. -/
def gap : Nat := min p.timing.tick.toNat longestWait

/-- What rounds from a stage and a time on add, each its own list of entries, and how they end. -/
inductive Course (deadline : Option Nat) :
    Stage → Nat → List (List Entry) → Except Halt Outcome → Session σ → Prop
  | ended {stage : Stage} {time : Nat} {t : Session σ} {es : List Entry} {outcome : Outcome} :
    p.Turn kind r deadline stage time t es (.ended outcome) → time ≤ t.now →
    Course deadline stage time [es] (.ok outcome) t
  | calledOff {stage stage' : Stage} {time : Nat} {t u : Session σ} {es : List Entry} :
    p.Turn kind r deadline stage time t es (.goesOn stage') → time ≤ t.now → u.isCancelled →
    Course deadline stage time [es] (.ok .cancelled) u
  | exhausted {stage stage' : Stage} {time : Nat} {t u : Session σ} {es : List Entry} :
    p.Turn kind r deadline stage time t es (.goesOn stage') → time ≤ t.now →
    Course deadline stage time [es] (.error .endless) u
  | goesOn {stage stage' : Stage} {time time' : Nat} {t u : Session σ} {es : List Entry}
      {ticks : List (List Entry)} {result : Except Halt Outcome} :
    p.Turn kind r deadline stage time t es (.goesOn stage') → time ≤ t.now →
    t.now + p.gap ≤ time' → Course deadline stage' time' ticks result u →
    Course deadline stage time (es :: ticks) result u

theorem course_of_interactFrom (deadline : Option Nat) (rounds : Nat) (stage : Stage)
    (s : Session σ) : ∃ result t ticks,
    (p.interactFrom kind r deadline rounds stage).go s = (result, t) ∧ s.Adds t ticks.flatten ∧
      p.Course kind r deadline stage s.now ticks result t := by
  unfold interactFrom
  obtain ⟨x, u, es, hgo, ha, hn, hturn⟩ := p.turn_of_round kind r deadline stage s
  rw [Act.go_bind_ok hgo]
  have hes : s.Adds u [es].flatten := by simpa using ha
  cases x with
  | ended outcome => exact ⟨_, u, [es], rfl, hes, .ended hturn hn⟩
  | goesOn stage' =>
    dsimp only
    rw [Act.go_bind_ok (Act.go_rest? u p.timing.tick.toNat)]
    have hfst := u.time.sleep_fst u.signal p.timing.tick.toNat
    cases hr : (u.time.sleep u.signal p.timing.tick.toNat).1 with
    | false =>
      rw [hr] at hfst
      exact ⟨_, _, [es], rfl, hes, .calledOff hturn hn (by simpa using hfst)⟩
    | true =>
      have hgap := u.time.min_le_of_sleep hr
      cases rounds with
      | zero => exact ⟨_, _, [es], rfl, hes, .exhausted hturn hn⟩
      | succ rounds =>
        obtain ⟨result, t, ticks, hgo', ha', hc⟩ := course_of_interactFrom deadline rounds stage'
          (u.moveTo (u.time.sleep u.signal p.timing.tick.toNat).2)
        exact ⟨result, t, es :: ticks, hgo', ha.trans ha', .goesOn hturn hn hgap hc⟩

/-- Every interaction has its course from the start. -/
theorem course_of_interact (s : Session σ) : ∃ result t ticks,
    (p.interact kind r).go s = (result, t) ∧ s.Adds t ticks.flatten ∧
      p.Course kind r (deadline? s.now r.timeout) .start s.now ticks result t := by
  unfold interact
  rw [Act.go_bind_ok (Act.go_now s)]
  exact p.course_of_interactFrom kind r _ p.rounds .start s

end Setup
end Progression
