import Progression.Leveling
import Progression.Proofs.Unlocking

/-!
Under which directive work gives its commands, and what it leaves published. `Host.Looks` says of
work that all it does is to look. `Act.Remains` says of work that it stays under the directive it
finds and publishes nothing, as every machine below the leveling does. Both hold of a sequence when
they hold of its parts. `Session.Does` says of two sessions what was done from one to the other.
-/

namespace Progression

variable {σ α β : Type}

/-! ### Work that only looks -/

/-- An event is a look at the game. -/
def Event.IsLook : Event → Prop
  | .asked .. => True
  | _ => False

/-- From one session to another, only looks are taken. -/
structure Host.Glance (h : Host σ) (s t : Session σ) (es : List Entry) : Prop where
  adds : s.Adds t es
  looks : ∀ e ∈ es, e.event.IsLook
  keeps : s.Keeps t
  /-- Where looks change nothing that can be seen, all can be seen as before. -/
  sees : h.Steady → h.sees t = h.sees s

/-- Work that only looks, and comes to a result. -/
def Host.Looks (h : Host σ) (a : Act σ α) : Prop :=
  ∀ s, ∃ x t es, a.go s = (.ok x, t) ∧ h.Glance s t es

namespace Host

variable {h : Host σ} {s t u : Session σ} {es fs : List Entry}

theorem Glance.refl (s : Session σ) : h.Glance s s [] := ⟨.refl s, by simp, .refl s, fun _ => rfl⟩

theorem Glance.trans (hs : h.Glance s t es) (ht : h.Glance t u fs) : h.Glance s u (es ++ fs) where
  adds := hs.adds.trans ht.adds
  looks := List.forall_mem_append.2 ⟨hs.looks, ht.looks⟩
  keeps := hs.keeps.trans ht.keeps
  sees hh := (ht.sees hh).trans (hs.sees hh)

theorem glance_asked (q : Query) :
    h.Glance s (s.asked q (h.ask q s.now s.world)) [⟨s.now, .asked q (h.sees s q)⟩] where
  adds := .asked s q _
  looks := by simp [Event.IsLook]
  keeps := s.keeps_asked q _
  sees hs := hs.sees_asked s q

theorem glance_of_look {q : Query} {x : q.Answer} (hgo : (h.look q).go s = (.ok x, t)) :
    h.Glance s t [⟨s.now, .asked q x⟩] := by
  rw [h.go_look] at hgo
  cases hgo
  exact glance_asked q

theorem looks_pure (x : α) : h.Looks (pure x) := fun s => ⟨x, s, [], rfl, .refl s⟩

theorem looks_look (q : Query) : h.Looks (h.look q) :=
  fun s => ⟨_, _, _, h.go_look s q, glance_asked q⟩

theorem Looks.bind {a : Act σ α} {f : α → Act σ β} (ha : h.Looks a) (hf : ∀ x, h.Looks (f x)) :
    h.Looks (a >>= f) := by
  intro s
  obtain ⟨x, t, es, hgo, hg⟩ := ha s
  obtain ⟨y, u, fs, hgo', hg'⟩ := hf x t
  exact ⟨y, u, es ++ fs, by rw [Act.go_bind_ok hgo, hgo'], hg.trans hg'⟩

theorem Looks.not_error {a : Act σ α} (ha : h.Looks a) {e : Halt} : a.go s ≠ (.error e, t) := by
  obtain ⟨x, u, es, hgo, -⟩ := ha s
  rw [hgo]
  nofun

end Host

section Looking

variable (h : Host σ)

theorem Objective.looks_isEligible (o : Objective) (level : UInt32) :
    h.Looks (o.isEligible h.look level) := by
  unfold isEligible
  split
  · exact Host.looks_pure _
  · refine (Host.looks_look _).bind ?_
    intro completed
    split
    · exact Host.looks_pure _
    · refine (Host.looks_look _).bind ?_
      intro held
      split
      · exact Host.looks_pure _
      · split
        · exact Host.looks_pure _
        · exact Host.looks_look _

theorem Objective.looks_firstEligible? (level : UInt32) (os : List Objective) :
    h.Looks (firstEligible? h.look level os) := by
  induction os with
  | nil => exact Host.looks_pure _
  | cons o os ih =>
    refine (o.looks_isEligible h level).bind ?_
    intro eligible
    split
    · exact Host.looks_pure _
    · exact ih

/-- An objective that is found is one of the list. -/
theorem Objective.mem_of_firstEligible? {level : UInt32} {os : List Objective} {o : Objective}
    {s t : Session σ} (hgo : (firstEligible? h.look level os).go s = (.ok (some o), t)) :
    o ∈ os := by
  induction os generalizing s with
  | nil => cases hgo
  | cons o' os ih =>
    obtain ⟨eligible, u, -, hgo⟩ := Act.go_bind_eq_ok.1 hgo
    cases eligible with
    | true => cases hgo; simp
    | false => exact .tail _ (ih hgo)

end Looking

/-! ### Directives -/

/-- A command is of a class, and given under one of several directives. -/
def Event.In (D : List String) (C : Command → Prop) : Event → Prop
  | .did c directive _ => directive ∈ D ∧ C c
  | _ => True

/-- From one session to another, directives are published at most. -/
structure Session.Retains (s t : Session σ) : Prop where
  levels : t.status.snapshot.levels = s.status.snapshot.levels
  targets : t.targets = s.targets
  summary : t.summary = s.summary

/-- The session under another directive. -/
def Session.directed (s : Session σ) (directive detail : String) : Session σ :=
  { s with status := s.status.publishDirective directive detail }

theorem Session.retains_directed (s : Session σ) (directive detail : String) :
    s.Retains (s.directed directive detail) := ⟨rfl, rfl, rfl⟩

section Events

variable {D E : List String} {B C : Command → Prop} {e : Event}

theorem Event.In.mono (h : e.In D B) (hD : ∀ d ∈ D, d ∈ E) (hC : ∀ c, B c → C c) : e.In E C := by
  cases e with
  | did c d x => exact ⟨hD d h.1, hC c h.2⟩
  | asked => trivial
  | ended => trivial
  | began => trivial
  | round => trivial

theorem Event.in_of_isLook (h : e.IsLook) : e.In D C := by
  cases e with
  | asked => trivial
  | did => exact h.elim
  | ended => trivial
  | began => trivial
  | round => trivial

theorem Event.in_of_command?_eq_none (h : e.command? = none) : e.In D C := by
  cases e with
  | did => cases h
  | asked => trivial
  | ended => trivial
  | began => trivial
  | round => trivial

variable {s t u : Session σ}

theorem Session.Keeps.retains (h : s.Keeps t) : s.Retains t :=
  ⟨by rw [h.status], h.targets, h.summary⟩

theorem Session.Retains.trans (h : s.Retains t) (h' : t.Retains u) : s.Retains u :=
  ⟨h'.levels.trans h.levels, h'.targets.trans h.targets, h'.summary.trans h.summary⟩

/-- From one session to another, commands of a class are given under certain directives. -/
structure Session.Does (s : Session σ) (D : List String) (C : Command → Prop) (es : List Entry)
    (t : Session σ) : Prop where
  adds : s.Adds t es
  within : ∀ e ∈ es, e.event.In D C

/-- And nothing is summed up. -/
structure Session.Works (s : Session σ) (D : List String) (C : Command → Prop) (es : List Entry)
    (t : Session σ) : Prop extends s.Does D C es t where
  summary : t.summary = s.summary

variable {es fs : List Entry}

theorem Session.Does.refl (s : Session σ) : s.Does D C [] s := ⟨.refl s, by simp⟩

theorem Session.Does.trans (h : s.Does D C es t) (h' : t.Does D C fs u) :
    s.Does D C (es ++ fs) u :=
  ⟨h.adds.trans h'.adds, List.forall_mem_append.2 ⟨h.within, h'.within⟩⟩

theorem Session.Does.mono (h : s.Does D B es t) (hD : ∀ d ∈ D, d ∈ E) (hC : ∀ c, B c → C c) :
    s.Does E C es t :=
  ⟨h.adds, fun e he => (h.within e he).mono hD hC⟩

theorem Session.Works.refl (s : Session σ) : s.Works D C [] s := ⟨.refl s, rfl⟩

theorem Session.Works.trans (h : s.Works D C es t) (h' : t.Works D C fs u) :
    s.Works D C (es ++ fs) u :=
  ⟨h.toDoes.trans h'.toDoes, h'.summary.trans h.summary⟩

theorem Session.Works.mono (h : s.Works D B es t) (hD : ∀ d ∈ D, d ∈ E) (hC : ∀ c, B c → C c) :
    s.Works E C es t :=
  ⟨h.toDoes.mono hD hC, h.summary⟩

theorem Session.Works.of_looks (ha : s.Adds t es) (hl : ∀ e ∈ es, e.event.IsLook)
    (hs : t.summary = s.summary) : s.Works D C es t :=
  ⟨⟨ha, fun e he => Event.in_of_isLook (hl e he)⟩, hs⟩

theorem Host.Glance.works {h : Host σ} (hg : h.Glance s t es) : s.Works D C es t :=
  .of_looks hg.adds hg.looks hg.keeps.summary

end Events

namespace Act

/-- Work gives commands of a class only, and all of them under the directive it finds. -/
structure RemainsFrom (C : Command → Prop) (a : Act σ α) (s : Session σ) : Prop where
  adds : ∃ es, s.Adds (a.go s).2 es ∧ ∀ e ∈ es, e.event.In [s.status.snapshot.directive] C
  keeps : s.Keeps (a.go s).2

def Remains (C : Command → Prop) (a : Act σ α) : Prop := ∀ s, a.RemainsFrom C s

variable {B C : Command → Prop} {a : Act σ α} {f : α → Act σ β} {s t : Session σ}

theorem RemainsFrom.of_go {r : Except Halt α} {es : List Entry} (h : a.go s = (r, t))
    (ha : s.Adds t es) (hes : ∀ e ∈ es, e.event.In [s.status.snapshot.directive] C)
    (hk : s.Keeps t) : a.RemainsFrom C s :=
  ⟨⟨es, by rw [h]; exact ha, hes⟩, by rw [h]; exact hk⟩

theorem Gives.remains (ha : a.Gives C) : a.Remains C := by
  intro s
  obtain ⟨⟨es, had, hes⟩, -, hk, hu⟩ := ha s
  refine ⟨⟨es, had, ?_⟩, hk⟩
  intro e he
  have hc := hes e he
  have hd := hu es had e he
  cases hev : e.event with
  | did c d x =>
    rw [hev] at hc hd
    exact ⟨List.mem_singleton.2 hd.1, hc⟩
  | asked => trivial
  | ended => trivial
  | began => trivial
  | round => trivial

theorem Remains.bind (ha : a.Remains C) (hf : ∀ x, (f x).Remains C) : (a >>= f).Remains C := by
  intro s
  obtain ⟨⟨es, had, hes⟩, hk⟩ := ha s
  rcases hr : a.go s with ⟨e | x, t⟩ <;> rw [hr] at had hk
  · exact .of_go (go_bind_error hr f) had hes hk
  · obtain ⟨⟨es', had', hes'⟩, hk'⟩ := hf x t
    rw [hk.status] at hes'
    exact .of_go (go_bind_ok hr f) (had.trans had') (List.forall_mem_append.2 ⟨hes, hes'⟩)
      (hk.trans hk')

theorem Remains.mono (ha : a.Remains B) (hC : ∀ c, B c → C c) : a.Remains C := by
  intro s
  obtain ⟨⟨es, had, hes⟩, hk⟩ := ha s
  exact ⟨⟨es, had, fun e he => (hes e he).mono (fun _ h => h) hC⟩, hk⟩

theorem remains_note {e : Event} (h : e.command? = none) : (note e : Act σ Unit).Remains C :=
  fun s => .of_go (go_note s e) (.cons (s.history_note e) (.refl _))
    (by simpa using Event.in_of_command?_eq_none h) ⟨rfl, rfl, rfl⟩

theorem remains_fail (e : Error) : (fail e : Act σ α).Remains C :=
  fun s => .of_go (go_fail s e) (.refl s) (by simp) (.refl s)

theorem go_check_cases (s : Session σ) :
    (check : Act σ Unit).go s = (.error (.failed .cancelled), s) ∨
      (check : Act σ Unit).go s = (.ok (), s) := by
  rw [go_check]
  by_cases h : s.isCancelled = true
  · exact .inl (by rw [if_pos h])
  · exact .inr (by rw [if_neg h])

theorem go_publishDirective (s : Session σ) (directive detail : String) :
    (publishDirective directive detail : Act σ Unit).go s =
      (.ok (), s.directed directive detail) := rfl

end Act

namespace Act

/-- Whatever comes of it, work gives commands of a class only, and all of them under certain
directives. -/
def Directs (D : List String) (C : Command → Prop) (a : Act σ α) : Prop :=
  ∀ s : Session σ, ∃ es, s.Does D C es (a.go s).2

variable {D E : List String} {B C : Command → Prop} {a : Act σ α} {f : α → Act σ β}

/-- What a sequence adds is what its first part adds, and then what its second part adds. -/
theorem Directs.then (ha : a.Directs D B) (hf : ∀ x, (f x).Directs E C) (s : Session σ) :
    ∃ es fs, s.Adds ((a >>= f).go s).2 (es ++ fs) ∧ (∀ e ∈ es, e.event.In D B) ∧
      ∀ e ∈ fs, e.event.In E C := by
  obtain ⟨es, hes⟩ := ha s
  rcases hr : a.go s with ⟨e | x, t⟩ <;> rw [hr] at hes
  · refine ⟨es, [], ?_, hes.within, by simp⟩
    rw [go_bind_error hr, List.append_nil]
    exact hes.adds
  · obtain ⟨fs, hfs⟩ := hf x t
    refine ⟨es, fs, ?_, hes.within, hfs.within⟩
    rw [go_bind_ok hr]
    exact hes.adds.trans hfs.adds

theorem Directs.bind (ha : a.Directs D C) (hf : ∀ x, (f x).Directs D C) :
    (a >>= f).Directs D C := by
  intro s
  obtain ⟨es, fs, hadds, hes, hfs⟩ := ha.then hf s
  exact ⟨es ++ fs, hadds, List.forall_mem_append.2 ⟨hes, hfs⟩⟩

theorem Directs.mono (ha : a.Directs D B) (hC : ∀ c, B c → C c) : a.Directs D C := by
  intro s
  obtain ⟨es, hes⟩ := ha s
  exact ⟨es, hes.mono (fun _ h => h) hC⟩

/-- Work that leaves the history alone. -/
theorem directs_of_silent {r : Session σ → Except Halt α} {next : Session σ → Session σ}
    (h : ∀ s, a.go s = (r s, next s)) (hn : ∀ s, (next s).history = s.history) : a.Directs D C := by
  intro s
  refine ⟨[], ?_, by simp⟩
  rw [h]
  exact hn s

theorem directs_pure (x : α) : (pure x : Act σ α).Directs D C :=
  directs_of_silent (go_pure · x) fun _ => rfl

theorem directs_check : (check : Act σ Unit).Directs D C := directs_of_silent go_check fun _ => rfl

theorem directs_publishDirective (directive detail : String) :
    (publishDirective directive detail : Act σ Unit).Directs D C :=
  directs_of_silent (go_publishDirective · directive detail) fun _ => rfl

theorem directs_modify (f : Session σ → Session σ) (hf : ∀ s, (f s).history = s.history) :
    (modify f : Act σ Unit).Directs D C :=
  directs_of_silent (fun _ => rfl) hf

/-- Work that is done under a directive published just before. -/
theorem Remains.directs (ha : a.Remains C) (directive detail : String) :
    (publishDirective directive detail >>= fun _ => a).Directs [directive] C := by
  intro s
  obtain ⟨⟨es, had, hes⟩, -⟩ := ha (s.directed directive detail)
  rw [go_bind_ok (go_publishDirective s directive detail)]
  exact ⟨es, had, hes⟩

end Act

theorem Host.Looks.directs {h : Host σ} {a : Act σ α} (ha : h.Looks a) {D : List String}
    {C : Command → Prop} : a.Directs D C := by
  intro s
  obtain ⟨x, t, es, hgo, hg⟩ := ha s
  rw [hgo]
  exact ⟨es, hg.works.toDoes⟩

/-! ### Unlocks -/

namespace Setup

variable (p : Setup σ) (u : Unlock)

/-- A command of an unlock belongs to one of its stages. -/
def IsUnlocking (c : Command) : Prop := ∃ stage, p.Belongs u stage c

theorem remains_stageWork (stage : UnlockStage) :
    (p.stageWork u stage).Remains (p.IsUnlocking u) := by
  refine Act.Remains.mono (B := p.Belongs u stage) ?_ fun c hc => ⟨stage, hc⟩
  unfold stageWork Belongs
  cases p.meeting u stage with
  | some m =>
    obtain ⟨kind, r⟩ := m
    refine (p.gives_interact kind r).remains.bind ?_
    intro outcome
    cases outcome with
    | succeeded => exact (Act.gives_pure ()).remains
    | timedOut => exact Act.remains_fail _
    | navigationFailed => exact Act.remains_fail _
    | cancelled => exact Act.remains_fail _
  | none =>
    refine (p.gives_switchAndEquip u.job).remains.bind ?_
    intro switched
    cases switched with
    | true => exact (Act.gives_pure ()).remains
    | false => exact Act.remains_fail _

theorem gives_pause {C : Command → Prop} (stage : UnlockStage) : (p.pause stage).Gives C := by
  cases stage with
  | prerequisite => exact Act.gives_rest _
  | acquire => exact Act.gives_pure ()
  | deliver => exact Act.gives_rest _
  | switch => exact Act.gives_pure ()

theorem remains_carryOut (stage : UnlockStage) :
    (p.carryOut u stage).Remains (p.IsUnlocking u) := by
  refine (p.gives_isCalledFor u stage).remains.bind ?_
  intro called
  split
  · exact (Act.gives_pure _).remains
  · refine (Act.remains_note rfl).bind fun _ => (p.remains_stageWork u stage).bind fun _ => ?_
    exact (p.gives_pause stage).remains.bind fun _ => (Act.gives_pure _).remains

theorem remains_carryOutAll (stages : List UnlockStage) :
    (p.carryOutAll u stages).Remains (p.IsUnlocking u) := by
  induction stages with
  | nil => exact (Act.gives_pure _).remains
  | cons stage stages ih =>
    refine (p.remains_carryOut u stage).bind fun _ => ih.bind fun _ => ?_
    exact (Act.gives_pure _).remains

/-- An unlock gives its commands under the directive it is begun under. -/
theorem remains_unlock : (p.unlock u).Remains (p.IsUnlocking u) := by
  rw [unlock_eq]
  refine (p.remains_carryOutAll u _).bind fun stages => (p.host.gives_look _).remains.bind ?_
  intro level
  split
  · refine (p.host.gives_look _).remains.bind ?_
    intro completed
    split
    · exact (Act.remains_fail _).bind fun _ => (Act.gives_pure _).remains
    · exact (Act.gives_pure _).remains
  · exact (Act.gives_pure _).remains

end Setup
end Progression
