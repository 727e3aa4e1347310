import Mathlib.Logic.Relation
import Progression.Proofs.Unlocking

/-!
How the game unfolds while work is done. An `Instant` is all that the game shows depends on, and
`Host.Unfolds` relates it to the instants that can come after it: by the work of the core, by time,
or by whatever else moves the game. `Act.Along R` says of work that it goes along a relation between
sessions; it holds of a sequence when it holds of its parts, so the machines up to an unlock need
one lemma each. They are used twice: work unfolds the game (`Host.carries_unfolds`), and what it is
answered is what the game tells at an instant in its course (`Host.carries_answers`).
-/

namespace Progression

variable {σ α β : Type}

/-! ### Work along a relation -/

/-- A relation between sessions that holds across everything that work consists of. -/
structure Host.Carries (h : Host σ) (R : Session σ → Session σ → Prop) : Prop where
  refl : ∀ s, R s s
  trans : ∀ {s t u}, R s t → R t u → R s u
  asked : ∀ s q, R s (s.asked q (h.ask q s.now s.world))
  begun : ∀ s c, R s (s.begun c (h.start c s.now s.world))
  finished : ∀ s c, R s (s.finished c (h.finish c s.now s.world))
  slept : ∀ s length, R s (s.moveTo (s.time.sleep s.signal length).2)
  noted : ∀ s stage, R s (s.note (.began stage))

/-- Whatever comes of it, work leaves a session that is related to the one it starts in. -/
def Act.Along (R : Session σ → Session σ → Prop) (a : Act σ α) : Prop := ∀ s, R s (a.go s).2

theorem Act.Along.of_go {R : Session σ → Session σ → Prop} {a : Act σ α} {s t : Session σ}
    {result : Except Halt α} (h : a.Along R) (hgo : a.go s = (result, t)) : R s t := by
  have hs := h s
  rwa [hgo] at hs

section Along

variable {h : Host σ} {R : Session σ → Session σ → Prop} (hR : h.Carries R)

include hR

namespace Act

variable {a : Act σ α} {f : α → Act σ β}

/-- Work that comes by a session in its first part, and goes on from there. -/
theorem along_bind_from {s t : Session σ} (ha : R t (a.go s).2) (hf : ∀ x, (f x).Along R) :
    R t ((a >>= f).go s).2 := by
  rcases hr : a.go s with ⟨e | x, u⟩ <;> rw [hr] at ha
  · rwa [go_bind_error hr]
  · rw [go_bind_ok hr]
    exact hR.trans ha (hf x u)

theorem Along.bind (ha : a.Along R) (hf : ∀ x, (f x).Along R) : (a >>= f).Along R :=
  fun s => along_bind_from hR (ha s) hf

theorem along_pure (x : α) : (pure x : Act σ α).Along R := hR.refl

theorem along_throw (e : Halt) : (throw e : Act σ α).Along R := hR.refl

theorem along_fail (e : Error) : (fail e : Act σ α).Along R := hR.refl

theorem along_now : (now : Act σ Nat).Along R := hR.refl

theorem along_isCancelled : (isCancelled : Act σ Bool).Along R := hR.refl

theorem along_note (stage : UnlockStage) : (note (.began stage) : Act σ Unit).Along R :=
  fun s => hR.noted s stage

theorem along_rest? (length : Nat) : (rest? length : Act σ Bool).Along R :=
  fun s => hR.slept s length

theorem along_rest (length : Nat) : (rest length : Act σ Unit).Along R := by
  refine Along.bind hR (along_rest? hR length) ?_
  intro ended
  split
  · exact along_fail hR _
  · exact along_pure hR ()

theorem along_check : (check : Act σ Unit).Along R := by
  refine Along.bind hR (along_isCancelled hR) ?_
  intro cancelled
  split
  · exact along_fail hR _
  · exact along_pure hR ()

end Act

namespace Host

theorem along_look (q : Query) : (h.look q).Along R := fun s => hR.asked s q

theorem along_issue (c : Command) : (h.issue c).Along R := fun s => hR.begun s c

theorem along_attempt? (c : Command) : (h.attempt? c).Along R := by
  have hfinish : (h.finishing c >>= fun b => (pure (some b) : Act σ _)).Along R :=
    Act.Along.bind hR (fun s => hR.finished s c) fun _ => Act.along_pure hR _
  refine Act.Along.bind hR (Act.along_isCancelled hR) ?_
  intro cancelled
  split
  · exact Act.along_pure hR none
  · refine Act.Along.bind hR (fun s => hR.begun s c) ?_
    intro delay
    split
    · refine Act.Along.bind hR (Act.along_rest? hR delay) ?_
      intro ended
      split
      · exact Act.along_pure hR none
      · exact hfinish
    · exact hfinish

end Host
end Along

namespace Setup

open Interaction

variable (p : Setup σ) {R : Session σ → Session σ → Prop} (hR : p.host.Carries R)

include hR

/-! ### Interactions -/

section Meetings

variable (kind : Interaction) (r : Request)

theorem along_isReached (id : ObjectiveId) : (kind.isReached p.host.look id).Along R := by
  cases kind <;> exact Host.along_look hR _

theorem along_firstOpen? (ws : List Window) : (p.firstOpen? ws).Along R := by
  induction ws with
  | nil => exact Act.along_pure hR none
  | cons w ws ih =>
    refine Act.Along.bind hR (Host.along_look hR _) ?_
    intro isOpen
    split
    · exact Act.along_pure hR _
    · exact ih

theorem along_converse (stage : Stage) : (p.converse kind r stage).Along R := by
  have hissue (c : Command) (x : Progress) : (p.host.issue c >>= fun _ => pure x).Along R :=
    Act.Along.bind hR (Host.along_issue hR c) fun _ => Act.along_pure hR x
  refine Act.Along.bind hR (p.along_firstOpen? hR _) ?_
  intro found
  cases found with
  | some w => exact hissue _ _
  | none =>
    cases stage with
    | waiting => exact Act.along_pure hR _
    | answering =>
      dsimp only
      split
      · exact Act.along_pure hR _
      · exact hissue _ _
    | start => exact hissue _ _
    | walking => exact hissue _ _
    | facing => exact hissue _ _

theorem along_work (stage : Stage) : (p.work kind r stage).Along R := by
  cases stage with
  | start =>
    refine Act.Along.bind hR (Host.along_attempt? hR _) ?_
    intro arrived
    split <;> exact Act.along_pure hR _
  | walking =>
    refine Act.Along.bind hR (Host.along_look hR _) ?_
    intro found
    split
    · exact Act.along_pure hR _
    · exact Act.along_pure hR _
    · refine Act.Along.bind hR (Host.along_attempt? hR _) ?_
      intro near
      split <;> exact Act.along_pure hR _
  | facing => exact p.along_converse hR kind r .facing
  | waiting => exact p.along_converse hR kind r .waiting
  | answering => exact p.along_converse hR kind r .answering

theorem along_round (deadline : Option Nat) (stage : Stage) :
    (p.round kind r deadline stage).Along R := by
  refine Act.Along.bind hR (Act.along_isCancelled hR) ?_
  intro cancelled
  split
  · exact Act.along_pure hR _
  · refine Act.Along.bind hR (p.along_isReached hR kind _) ?_
    intro reached
    split
    · exact Act.along_pure hR _
    · refine Act.Along.bind hR (Act.along_now hR) ?_
      intro now
      split
      · refine Act.Along.bind hR (p.along_isReached hR kind _) ?_
        intro late
        split <;> exact Act.along_pure hR _
      · exact p.along_work hR kind r stage

theorem along_interactFrom (deadline : Option Nat) (rounds : Nat) (stage : Stage) :
    (p.interactFrom kind r deadline rounds stage).Along R := by
  induction rounds generalizing stage with
  | zero =>
    rw [interactFrom]
    refine Act.Along.bind hR (p.along_round hR kind r deadline stage) ?_
    intro progress
    split
    · exact Act.along_pure hR _
    · refine Act.Along.bind hR (Act.along_rest? hR _) ?_
      intro ended
      split
      · exact Act.along_pure hR _
      · exact Act.along_throw hR _
  | succ rounds ih =>
    rw [interactFrom]
    refine Act.Along.bind hR (p.along_round hR kind r deadline stage) ?_
    intro progress
    split
    · exact Act.along_pure hR _
    · refine Act.Along.bind hR (Act.along_rest? hR _) ?_
      intro ended
      split
      · exact Act.along_pure hR _
      · exact ih _

theorem along_interact : (p.interact kind r).Along R :=
  Act.Along.bind hR (Act.along_now hR) fun _ => p.along_interactFrom hR kind r _ _ _

end Meetings

/-! ### Changes of class -/

section Changes

variable (job : Job)

theorem along_isActive : (p.isActive job).Along R :=
  Act.Along.bind hR (Host.along_look hR _) fun _ => Act.along_pure hR _

theorem along_awaitRound (deadline : Option Nat) : (p.awaitRound job deadline).Along R := by
  refine Act.Along.bind hR (p.along_isActive hR job) ?_
  intro active
  split
  · exact Act.along_pure hR _
  · have hconfirm : p.confirm.Along R := by
      refine Act.Along.bind hR (Host.along_look hR _) ?_
      intro asks
      split
      · exact Host.along_issue hR _
      · exact Act.along_pure hR ()
    refine Act.Along.bind hR hconfirm fun _ => Act.Along.bind hR (Act.along_now hR) ?_
    intro now
    split <;> exact Act.along_pure hR _

theorem along_awaitJob (deadline : Option Nat) (rounds : Nat) :
    (p.awaitJob job deadline rounds).Along R := by
  induction rounds with
  | zero =>
    rw [awaitJob]
    refine Act.Along.bind hR (p.along_awaitRound hR job deadline) ?_
    intro settled
    split
    · exact Act.along_pure hR _
    · exact Act.Along.bind hR (Act.along_rest hR _) fun _ => Act.along_throw hR _
  | succ rounds ih =>
    rw [awaitJob]
    refine Act.Along.bind hR (p.along_awaitRound hR job deadline) ?_
    intro settled
    split
    · exact Act.along_pure hR _
    · exact Act.Along.bind hR (Act.along_rest hR _) fun _ => ih

theorem along_changeJob : (p.changeJob job).Along R := by
  refine Act.Along.bind hR (p.along_isActive hR job) ?_
  intro active
  split
  · exact Act.along_pure hR true
  · refine Act.Along.bind hR (Act.along_check hR) fun _ => ?_
    refine Act.Along.bind hR (Host.along_issue hR _) fun _ => ?_
    exact Act.Along.bind hR (Act.along_now hR) fun _ => p.along_awaitJob hR job _ _

theorem along_switchAndEquip : (p.switchAndEquip job).Along R := by
  refine Act.Along.bind hR (Act.along_rest hR _) fun _ =>
    Act.Along.bind hR (p.along_changeJob hR job) ?_
  intro changed
  split
  · exact Act.along_pure hR false
  · refine Act.Along.bind hR (Host.along_issue hR _) fun _ => ?_
    exact Act.Along.bind hR (Act.along_rest hR _) fun _ => Act.along_pure hR true

end Changes

/-! ### Unlocks -/

section Unlocks

variable (u : Unlock)

theorem along_isCalledFor (stage : UnlockStage) : (p.isCalledFor u stage).Along R := by
  cases stage with
  | prerequisite =>
    rw [isCalledFor_prerequisite]
    split
    · exact Act.along_pure hR false
    · exact Act.Along.bind hR (Host.along_look hR _) fun _ => Act.along_pure hR _
  | acquire =>
    refine Act.Along.bind hR (Host.along_look hR _) ?_
    intro done
    split
    · exact Act.along_pure hR false
    · exact Act.Along.bind hR (Host.along_look hR _) fun _ => Act.along_pure hR _
  | deliver => exact Host.along_look hR _
  | switch =>
    refine Act.Along.bind hR (Host.along_look hR _) ?_
    intro done
    split
    · exact Act.along_pure hR false
    · exact Act.Along.bind hR (p.along_isActive hR _) fun _ => Act.along_pure hR _

theorem along_stageWork (stage : UnlockStage) : (p.stageWork u stage).Along R := by
  unfold stageWork
  cases p.meeting u stage with
  | some m =>
    obtain ⟨kind, r⟩ := m
    refine Act.Along.bind hR (p.along_interact hR kind r) ?_
    intro outcome
    cases outcome with
    | succeeded => exact Act.along_pure hR ()
    | timedOut => exact Act.along_fail hR _
    | navigationFailed => exact Act.along_fail hR _
    | cancelled => exact Act.along_fail hR _
  | none =>
    refine Act.Along.bind hR (p.along_switchAndEquip hR _) ?_
    intro switched
    split
    · exact Act.along_fail hR _
    · exact Act.along_pure hR ()

theorem along_pause (stage : UnlockStage) : (p.pause stage).Along R := by
  cases stage with
  | prerequisite => exact Act.along_rest hR _
  | acquire => exact Act.along_pure hR ()
  | deliver => exact Act.along_rest hR _
  | switch => exact Act.along_pure hR ()

theorem along_carryOut (stage : UnlockStage) : (p.carryOut u stage).Along R := by
  refine Act.Along.bind hR (p.along_isCalledFor hR u stage) ?_
  intro called
  split
  · exact Act.along_pure hR _
  · refine Act.Along.bind hR (Act.along_note hR _) fun _ =>
      Act.Along.bind hR (p.along_stageWork hR u stage) fun _ => ?_
    exact Act.Along.bind hR (p.along_pause hR stage) fun _ => Act.along_pure hR _

theorem along_carryOutAll (stages : List UnlockStage) : (p.carryOutAll u stages).Along R := by
  induction stages with
  | nil => exact Act.along_pure hR _
  | cons stage stages ih =>
    refine Act.Along.bind hR (p.along_carryOut hR u stage) fun _ => ?_
    exact Act.Along.bind hR ih fun _ => Act.along_pure hR _

theorem along_verify (stages : List UnlockStage) : (p.verify u stages).Along R := by
  refine Act.Along.bind hR (Host.along_look hR _) ?_
  intro level
  split
  · refine Act.Along.bind hR (Host.along_look hR _) ?_
    intro completed
    split
    · exact Act.Along.bind hR (Act.along_fail hR _) fun _ => Act.along_pure hR _
    · exact Act.along_pure hR _
  · exact Act.along_pure hR _

theorem along_unlock : (p.unlock u).Along R := by
  rw [unlock_eq]
  exact Act.Along.bind hR (p.along_carryOutAll hR u _) fun _ => p.along_verify hR u _

end Unlocks

end Setup

/-! ### Instants -/

/-- A moment of the game: the time, and the state of the world. -/
structure Instant (σ : Type) where
  time : Nat
  world : σ

/-- The moment at which a session stands. -/
def Session.instant (s : Session σ) : Instant σ := ⟨s.now, s.world⟩

namespace Host

variable (h : Host σ) (outside : Instant σ → Instant σ → Prop)

/-- What the game answers at an instant. -/
def tells (a : Instant σ) : Oracle Id := fun q => (h.ask q a.time a.world).answer

theorem tells_instant (s : Session σ) : h.tells s.instant = h.sees s := rfl

/-- From one instant to the next: something is asked, a command is begun or ends, time passes, or
the game is moved from outside. -/
inductive Moves : Instant σ → Instant σ → Prop
  | asked (a : Instant σ) (q : Query) : Moves a ⟨a.time, (h.ask q a.time a.world).state⟩
  | begun (a : Instant σ) (c : Command) : Moves a ⟨a.time, (h.start c a.time a.world).state⟩
  | finished (a : Instant σ) (c : Command) : Moves a ⟨a.time, (h.finish c a.time a.world).state⟩
  | waited (a : Instant σ) {time : Nat} : a.time ≤ time → Moves a ⟨time, a.world⟩
  | moved {a b : Instant σ} : outside a b → Moves a b

/-- From one instant to a later one. -/
def Unfolds : Instant σ → Instant σ → Prop := Relation.ReflTransGen (h.Moves outside)

theorem carries_unfolds : h.Carries fun s t => h.Unfolds outside s.instant t.instant where
  refl _ := .refl
  trans := Relation.ReflTransGen.trans
  asked s q := by
    refine .single ?_
    unfold Session.instant
    rw [Session.now_asked, Session.world_asked]
    exact .asked s.instant q
  begun s c := by
    refine .single ?_
    unfold Session.instant
    rw [Session.now_begun, Session.world_begun]
    exact .begun s.instant c
  finished s c := by
    refine .single ?_
    unfold Session.instant
    rw [Session.now_finished, Session.world_finished]
    exact .finished s.instant c
  slept s length := .single (.waited s.instant (Timeline.now_le_sleep s.time s.signal length))
  noted _ _ := .refl

/-- One session comes after another, and each answer in the history it adds is what the game tells
at an instant between the two. -/
structure Answers (s t : Session σ) : Prop where
  unfolds : h.Unfolds outside s.instant t.instant
  answered : ∃ es, s.Adds t es ∧ ∀ e ∈ es, ∀ q x, e.event = .asked q x →
    ∃ a, h.Unfolds outside s.instant a ∧ h.Unfolds outside a t.instant ∧ h.tells a q = x

namespace Answers

variable {h outside}

variable {s t : Session σ}

/-- Nothing is asked. -/
theorem of_silent {es : List Entry} (hu : h.Unfolds outside s.instant t.instant)
    (ha : s.Adds t es) (hes : ∀ e ∈ es, ∀ q x, e.event ≠ .asked q x) : h.Answers outside s t :=
  ⟨hu, es, ha, fun e he q x hx => absurd hx (hes e he q x)⟩

theorem trans {u : Session σ} (hst : h.Answers outside s t) (htu : h.Answers outside t u) :
    h.Answers outside s u := by
  obtain ⟨es, hes, hfirst⟩ := hst.answered
  obtain ⟨fs, hfs, hthen⟩ := htu.answered
  refine ⟨hst.unfolds.trans htu.unfolds, es ++ fs, hes.trans hfs, ?_⟩
  intro e he q x hx
  rcases List.mem_append.1 he with he | he
  · obtain ⟨a, hsa, hat, ha⟩ := hfirst e he q x hx
    exact ⟨a, hsa, hat.trans htu.unfolds, ha⟩
  · obtain ⟨a, hta, hau, ha⟩ := hthen e he q x hx
    exact ⟨a, hst.unfolds.trans hta, hau, ha⟩

/-- What the last look was answered, if it was taken after the first session. -/
theorem exists_tells {q : Query} {x : q.Answer} (hst : h.Answers outside s t)
    (hlast : (h.look q).Leaves x t) (hs : ∀ e ∈ s.history.head?, ∀ q x, e.event ≠ .asked q x) :
    ∃ a, h.Unfolds outside s.instant a ∧ h.Unfolds outside a t.instant ∧ h.tells a q = x := by
  obtain ⟨es, hes, hanswers⟩ := hst.answered
  obtain ⟨v, hv⟩ := hlast
  rw [h.go_look] at hv
  cases hv
  have hhistory := (v.history_asked q _).symm.trans hes
  rcases List.eq_nil_or_concat es with rfl | ⟨fs, e, rfl⟩
  · rw [List.reverse_nil, List.nil_append] at hhistory
    exact absurd rfl (hs _ (by rw [← hhistory]; rfl) q _)
  · have he := hanswers e (by simp)
    rw [List.concat_eq_append, List.reverse_append] at hhistory
    obtain ⟨rfl, -⟩ := List.cons.inj hhistory
    exact he q _ rfl

end Answers

theorem carries_answers : h.Carries (h.Answers outside) where
  refl s := .of_silent .refl (.refl s) (by simp)
  trans := Answers.trans
  asked s q := by
    have hstep := (h.carries_unfolds outside).asked s q
    refine ⟨hstep, _, .asked s q _, ?_⟩
    intro e he q' x hx
    cases List.mem_singleton.1 he
    cases hx
    exact ⟨s.instant, .refl, hstep, rfl⟩
  begun s c := by
    refine .of_silent ((h.carries_unfolds outside).begun s c)
      (.cons (s.history_begun c _) (.refl _)) ?_
    simp
  finished s c := by
    refine .of_silent ((h.carries_unfolds outside).finished s c)
      (.cons (s.history_finished c _) (.refl _)) ?_
    simp
  slept s length := .of_silent ((h.carries_unfolds outside).slept s length) (.refl s) (by simp)
  noted s stage := by
    refine .of_silent .refl (.cons (s.history_note (.began stage)) (.refl _)) ?_
    simp

end Host
end Progression
