import Progression.Proofs.Interaction.Course
import Progression.Switch

/-!
Which commands work can give. `Act.Gives C` says of all that a piece of work can do: what it adds
to the history are looks, commands in `C` and their ends, no part of the work is begun, nothing is
published, and it stops only when it is called off or when its rounds are used up. The commands of a
sequence follow from those of its parts, so the machines of the core need one lemma each.
-/

namespace Progression

variable {σ α β : Type}

/-- An event that begins no part of the work, and no command outside a class. -/
def Event.Within (C : Command → Prop) : Event → Prop
  | .asked .. => True
  | .did c .. => C c
  | .ended .. => True
  | .began _ => False
  | .round .. => False

theorem Event.Within.command {C : Command → Prop} {e : Event} (h : e.Within C) {c : Command}
    (hc : e.command? = some c) : C c := by
  cases e with
  | did => cases hc; exact h
  | asked => cases hc
  | ended => cases hc
  | began => cases hc
  | round => cases hc

/-- A command is given under the directive of a snapshot. -/
def Event.Under (snapshot : Status.Snapshot) : Event → Prop
  | .did _ directive detail => directive = snapshot.directive ∧ detail = snapshot.detail
  | _ => True

/-- From one session to another, nothing is published and nothing is summed up. -/
structure Session.Keeps (s t : Session σ) : Prop where
  status : t.status = s.status
  targets : t.targets = s.targets
  summary : t.summary = s.summary

namespace Session

variable {s t u : Session σ}

theorem Keeps.refl (s : Session σ) : s.Keeps s := ⟨rfl, rfl, rfl⟩

theorem Keeps.trans (h : s.Keeps t) (h' : t.Keeps u) : s.Keeps u :=
  ⟨h'.status.trans h.status, h'.targets.trans h.targets, h'.summary.trans h.summary⟩

theorem keeps_asked (s : Session σ) (q : Query) (r : Replied σ q.Answer) : s.Keeps (s.asked q r) := by
  unfold asked raiseIf
  split <;> exact ⟨rfl, rfl, rfl⟩

theorem keeps_begun (s : Session σ) (c : Command) (b : Begun σ) : s.Keeps (s.begun c b) := by
  unfold begun raiseIf
  split <;> exact ⟨rfl, rfl, rfl⟩

theorem keeps_finished (s : Session σ) (c : Command) (r : Replied σ Bool) : s.Keeps (s.finished c r) := by
  unfold finished raiseIf
  split <;> exact ⟨rfl, rfl, rfl⟩

/-- What a session adds to another is determined by the two. -/
theorem Adds.unique {es fs : List Entry} (h : s.Adds t es) (h' : s.Adds t fs) : es = fs :=
  List.reverse_inj.1 (List.append_cancel_right (h.symm.trans h'))

end Session

/-- A stop that no failure stands behind: the work is called off, or its rounds are used up. -/
def Halt.IsQuit (e : Halt) : Prop := e = .failed .cancelled ∨ e = .endless

namespace Act

/-- What work adds in a session, what it leaves as it is, and how it stops there. -/
structure GivesFrom (C : Command → Prop) (a : Act σ α) (s : Session σ) : Prop where
  adds : ∃ es, s.Adds (a.go s).2 es ∧ ∀ e ∈ es, e.event.Within C
  halts : ∀ e, (a.go s).1 = .error e → e.IsQuit
  keeps : s.Keeps (a.go s).2
  under : ∀ es, s.Adds (a.go s).2 es → ∀ e ∈ es, e.event.Under s.status.snapshot

/-- Work gives commands of a class only. -/
def Gives (C : Command → Prop) (a : Act σ α) : Prop := ∀ s, a.GivesFrom C s

variable {C : Command → Prop} {a : Act σ α} {f : α → Act σ β} {s t : Session σ}

theorem GivesFrom.of_go {r : Except Halt α} {es : List Entry} (h : a.go s = (r, t))
    (ha : s.Adds t es) (hes : ∀ e ∈ es, e.event.Within C) (hr : ∀ e, r = .error e → e.IsQuit)
    (hk : s.Keeps t) (hu : ∀ e ∈ es, e.event.Under s.status.snapshot) : a.GivesFrom C s where
  adds := ⟨es, by rw [h]; exact ha, hes⟩
  halts := by rw [h]; exact hr
  keeps := by rw [h]; exact hk
  under fs hf := by
    rw [h] at hf
    rwa [hf.unique ha]

theorem GivesFrom.bind (ha : a.GivesFrom C s)
    (hf : ∀ x t, a.go s = (.ok x, t) → (f x).GivesFrom C t) : (a >>= f).GivesFrom C s := by
  obtain ⟨⟨es, had, hes⟩, hq, hk, hu⟩ := ha
  replace hu := hu es had
  rcases hr : a.go s with ⟨e | x, t⟩
  · rw [hr] at had hq hk
    exact .of_go (go_bind_error hr f) had hes (fun e' he => hq e' (by cases he; rfl)) hk hu
  · rw [hr] at had hk
    obtain ⟨⟨es', had', hes'⟩, hq', hk', hu'⟩ := hf x t hr
    replace hu' := hu' es' had'
    rw [hk.status] at hu'
    exact .of_go (go_bind_ok hr f) (had.trans had') (List.forall_mem_append.2 ⟨hes, hes'⟩) hq'
      (hk.trans hk') (List.forall_mem_append.2 ⟨hu, hu'⟩)

theorem Gives.bind (ha : a.Gives C) (hf : ∀ x, (f x).Gives C) : (a >>= f).Gives C :=
  fun s => (ha s).bind fun x t _ => hf x t

/-- Work that leaves the history alone. -/
theorem gives_of_silent {r : Session σ → Except Halt α} {next : Session σ → Session σ}
    (h : ∀ s, a.go s = (r s, next s))
    (hn : ∀ s : Session σ, (next s).history = s.history ∧ s.Keeps (next s))
    (hr : ∀ s e, r s = .error e → e.IsQuit) : a.Gives C := by
  intro s
  have ha : s.Adds (next s) [] := (hn s).1
  exact .of_go (h s) ha (by simp) (hr s) (hn s).2 (by simp)

theorem gives_pure (x : α) : (pure x : Act σ α).Gives C :=
  gives_of_silent (go_pure · x) (fun s => ⟨rfl, .refl s⟩) fun _ _ h => by cases h

theorem gives_throw {e : Halt} (he : e.IsQuit) : (throw e : Act σ α).Gives C :=
  gives_of_silent (go_throw · e) (fun s => ⟨rfl, .refl s⟩) fun _ _ h => by cases h; exact he

theorem gives_cancelled : (fail .cancelled : Act σ α).Gives C := gives_throw (.inl rfl)

theorem gives_now : (now : Act σ Nat).Gives C :=
  gives_of_silent go_now (fun s => ⟨rfl, .refl s⟩) fun _ _ h => by cases h

theorem gives_isCancelled : (isCancelled : Act σ Bool).Gives C :=
  gives_of_silent go_isCancelled (fun s => ⟨rfl, .refl s⟩) fun _ _ h => by cases h

theorem gives_rest? (length : Nat) : (rest? length : Act σ Bool).Gives C :=
  gives_of_silent (go_rest? · length) (fun _ => ⟨rfl, rfl, rfl, rfl⟩) fun _ _ h => by cases h

theorem gives_rest (length : Nat) : (rest length : Act σ Unit).Gives C := by
  refine (gives_rest? length).bind ?_
  intro ended
  split
  · exact gives_cancelled
  · exact gives_pure ()

theorem gives_check : (check : Act σ Unit).Gives C := by
  refine gives_isCancelled.bind ?_
  intro cancelled
  split
  · exact gives_cancelled
  · exact gives_pure ()

end Act

namespace Host

variable (h : Host σ) {C : Command → Prop}

theorem gives_look (q : Query) : (h.look q).Gives C :=
  fun s => .of_go (h.go_look s q) (.asked s q _) (by simp [Event.Within]) (fun _ h => by cases h)
    (s.keeps_asked q _) (by simp [Event.Under])

theorem gives_begin {c : Command} (hc : C c) : (h.begin c).Gives C :=
  fun s => .of_go (h.go_begin s c) (.cons (s.history_begun c _) (.refl _))
    (by simpa [Event.Within] using hc) (fun _ h => by cases h) (s.keeps_begun c _)
    (by simp [Event.Under])

theorem gives_finishing (c : Command) : (h.finishing c).Gives C :=
  fun s => .of_go (h.go_finishing s c) (.cons (s.history_finished c _) (.refl _))
    (by simp [Event.Within]) (fun _ h => by cases h) (s.keeps_finished c _) (by simp [Event.Under])

theorem gives_issue {c : Command} (hc : C c) : (h.issue c).Gives C :=
  (h.gives_begin hc).bind fun _ => Act.gives_pure ()

theorem gives_attempt? {c : Command} (hc : C c) : (h.attempt? c).Gives C := by
  have hf : (h.finishing c >>= fun b => (pure (some b) : Act σ _)).Gives C :=
    (h.gives_finishing c).bind fun _ => Act.gives_pure _
  refine Act.gives_isCancelled.bind ?_
  intro cancelled
  split
  · exact Act.gives_pure none
  · refine (h.gives_begin hc).bind ?_
    intro delay
    split
    · refine (Act.gives_rest? delay).bind ?_
      intro ended
      split
      · exact Act.gives_pure none
      · exact hf
    · exact hf

theorem gives_attempt {c : Command} (hc : C c) : (h.attempt c).Gives C := by
  refine (h.gives_attempt? hc).bind ?_
  intro success
  cases success with
  | some success => exact Act.gives_pure success
  | none => exact Act.gives_cancelled

end Host

namespace Interaction

variable (kind : Interaction) (r : Request)

/-- A command of an interaction: the journey to its place, the walk up to its actor, an address of
the actor, or an answer to one of its windows. -/
def IsPart (c : Command) : Prop :=
  c = .goTo r.zone r.place ∨ c = .approach r.actor ∨ c = .interact r.actor ∨
    ∃ w ∈ kind.handlers, Replies r.option w c

variable {kind r}

theorem isPart_goTo : kind.IsPart r (.goTo r.zone r.place) := .inl rfl
theorem isPart_approach : kind.IsPart r (.approach r.actor) := .inr (.inl rfl)
theorem isPart_interact : kind.IsPart r (.interact r.actor) := .inr (.inr (.inl rfl))

theorem isPart_reply {w : Window} (hw : w ∈ kind.windows) : kind.IsPart r (reply r.option w) :=
  .inr (.inr (.inr ⟨w, kind.windows_eq ▸ hw, replies_reply r.option w⟩))

end Interaction

namespace Setup

open Interaction

variable (p : Setup σ) (kind : Interaction) (r : Request)

/-! ### Interactions -/

theorem gives_isReached {C : Command → Prop} (id : ObjectiveId) :
    (kind.isReached p.host.look id).Gives C := by
  cases kind <;> exact p.host.gives_look _

theorem gives_firstOpen? {C : Command → Prop} (ws : List Window) : (p.firstOpen? ws).Gives C := by
  induction ws with
  | nil => exact Act.gives_pure none
  | cons w ws ih =>
    refine (p.host.gives_look _).bind ?_
    intro isOpen
    split
    · exact Act.gives_pure (some w)
    · exact ih

/-- A window that is found open is one of those looked at. -/
theorem mem_of_firstOpen? {ws : List Window} {w : Window} {s t : Session σ}
    (h : (p.firstOpen? ws).go s = (.ok (some w), t)) : w ∈ ws := by
  obtain ⟨x, t', es, hgo, -, -, ⟨rfl, -⟩ | ⟨front, w', back, rfl, rfl, -⟩⟩ := p.go_firstOpen? ws s
  · rw [h] at hgo; cases hgo
  · rw [h] at hgo; cases hgo; simp

theorem gives_converse (stage : Stage) : (p.converse kind r stage).Gives (kind.IsPart r) := by
  have hi {c : Command} (x : Progress) (hc : kind.IsPart r c) :
      (p.host.issue c >>= fun _ => pure x).Gives (kind.IsPart r) :=
    (p.host.gives_issue hc).bind fun _ => Act.gives_pure x
  have hp (x : Progress) : (pure x : Act σ Progress).Gives (kind.IsPart r) := Act.gives_pure x
  -- The window that is answered is known only from the search that found it.
  refine fun s => (p.gives_firstOpen? kind.windows s).bind ?_
  intro x t hr
  cases x with
  | some w => exact hi _ (isPart_reply (p.mem_of_firstOpen? hr)) t
  | none =>
    cases stage with
    | waiting => exact hp _ t
    | answering =>
      dsimp only
      split
      · exact hp _ t
      · exact hi _ isPart_interact t
    | start => exact hi _ isPart_interact t
    | walking => exact hi _ isPart_interact t
    | facing => exact hi _ isPart_interact t

theorem gives_work (stage : Stage) : (p.work kind r stage).Gives (kind.IsPart r) := by
  have hp (x : Progress) : (pure x : Act σ Progress).Gives (kind.IsPart r) := Act.gives_pure x
  cases stage with
  | start =>
    refine (p.host.gives_attempt? isPart_goTo).bind ?_
    intro arrived
    split <;> exact hp _
  | walking =>
    refine (p.host.gives_look _).bind ?_
    intro found
    split
    · exact hp _
    · exact hp _
    · refine (p.host.gives_attempt? isPart_approach).bind ?_
      intro near
      split <;> exact hp _
  | facing => exact p.gives_converse kind r .facing
  | waiting => exact p.gives_converse kind r .waiting
  | answering => exact p.gives_converse kind r .answering

theorem gives_round (deadline : Option Nat) (stage : Stage) :
    (p.round kind r deadline stage).Gives (kind.IsPart r) := by
  have hp (x : Progress) : (pure x : Act σ Progress).Gives (kind.IsPart r) := Act.gives_pure x
  refine Act.gives_isCancelled.bind ?_
  intro cancelled
  split
  · exact hp _
  · refine (p.gives_isReached kind r.objective).bind ?_
    intro reached
    split
    · exact hp _
    · refine Act.gives_now.bind ?_
      intro now
      split
      · refine (p.gives_isReached kind r.objective).bind ?_
        intro late
        split <;> exact hp _
      · exact p.gives_work kind r stage

theorem gives_interactFrom (deadline : Option Nat) (rounds : Nat) (stage : Stage) :
    (p.interactFrom kind r deadline rounds stage).Gives (kind.IsPart r) := by
  induction rounds generalizing stage with
  | zero =>
    rw [interactFrom]
    refine (p.gives_round kind r deadline stage).bind ?_
    intro progress
    split
    · exact Act.gives_pure _
    · refine (Act.gives_rest? _).bind ?_
      intro ended
      split
      · exact Act.gives_pure _
      · exact Act.gives_throw (.inr rfl)
  | succ rounds ih =>
    rw [interactFrom]
    refine (p.gives_round kind r deadline stage).bind ?_
    intro progress
    split
    · exact Act.gives_pure _
    · refine (Act.gives_rest? _).bind ?_
      intro ended
      split
      · exact Act.gives_pure _
      · exact ih _

theorem gives_interact : (p.interact kind r).Gives (kind.IsPart r) :=
  Act.gives_now.bind fun _ => p.gives_interactFrom kind r _ _ _

/-! ### Changes of class -/

/-- A command of a change of class: the request, the confirmation, or the gear. -/
def IsChange (job : Job) (c : Command) : Prop :=
  c = .changeJob job ∨ c = .choose .selectYesNo 0 ∨ c = .equip

variable (job : Job)

theorem gives_isActive {C : Command → Prop} : (p.isActive job).Gives C :=
  (p.host.gives_look _).bind fun _ => Act.gives_pure _

theorem gives_awaitRound (deadline : Option Nat) :
    (p.awaitRound job deadline).Gives (IsChange job) := by
  refine (p.gives_isActive job).bind ?_
  intro active
  split
  · exact Act.gives_pure _
  · have hc : p.confirm.Gives (IsChange job) := by
      refine (p.host.gives_look _).bind ?_
      intro asks
      split
      · exact p.host.gives_issue (.inr (.inl rfl))
      · exact Act.gives_pure ()
    refine hc.bind fun _ => Act.gives_now.bind ?_
    intro now
    split <;> exact Act.gives_pure _

theorem gives_awaitJob (deadline : Option Nat) (rounds : Nat) :
    (p.awaitJob job deadline rounds).Gives (IsChange job) := by
  induction rounds with
  | zero =>
    rw [awaitJob]
    refine (p.gives_awaitRound job deadline).bind ?_
    intro settled
    split
    · exact Act.gives_pure _
    · exact (Act.gives_rest _).bind fun _ => Act.gives_throw (.inr rfl)
  | succ rounds ih =>
    rw [awaitJob]
    refine (p.gives_awaitRound job deadline).bind ?_
    intro settled
    split
    · exact Act.gives_pure _
    · exact (Act.gives_rest _).bind fun _ => ih

theorem gives_changeJob : (p.changeJob job).Gives (IsChange job) := by
  refine (p.gives_isActive job).bind ?_
  intro active
  split
  · exact Act.gives_pure true
  · refine Act.gives_check.bind fun _ => (p.host.gives_issue (.inl rfl)).bind fun _ => ?_
    exact Act.gives_now.bind fun _ => p.gives_awaitJob job _ _

theorem gives_switchAndEquip : (p.switchAndEquip job).Gives (IsChange job) := by
  refine (Act.gives_rest _).bind fun _ => (p.gives_changeJob job).bind ?_
  intro changed
  split
  · exact Act.gives_pure false
  · refine (p.host.gives_issue (.inr (.inr rfl))).bind fun _ => ?_
    exact (Act.gives_rest _).bind fun _ => Act.gives_pure true

end Setup
end Progression
