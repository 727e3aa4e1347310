import Progression.Proofs.Work

/-!
Heeding a call to stop. `Session.Heeds j k` compares a session with a later one and counts the
commands that come after the call: at most `j` when the call came before the first session, at most
`k` when it came between the two, and no time passes after it. `Act.Heeds j k` says so of all that
a piece of work can do. Single commands heed with `1 0`, queries and waits with `0 0`; the numbers
of a sequence follow from those of its parts.
-/

namespace Progression

variable {σ α β : Type}

/-! ### Sessions -/

namespace Session

/-- From one session to a later one, at most `j` commands are given after a call to stop that came
before, at most `k` after a call that came on the way, and no time passes after either. -/
structure Heeds (j k : Nat) (s t : Session σ) : Prop where
  now_le : s.now ≤ t.now
  commands : s.commands <:+ t.commands
  still : s.isCancelled → t.isCancelled ∧ t.calledOff = s.calledOff ∧ t.now = s.now ∧
    t.commands.length ≤ s.commands.length + j
  prompt : s.isCancelled = false → t.isCancelled → ∃ m, t.calledOff = some m ∧
    s.now ≤ m.time ∧ s.commands.length ≤ m.given ∧ m.given ≤ t.commands.length ∧
    t.now = m.time ∧ t.commands.length ≤ m.given + k

variable {s t u : Session σ} {j k v w : Nat}

theorem Heeds.refl (s : Session σ) : s.Heeds 0 0 s where
  now_le := Nat.le_refl _
  commands := List.suffix_refl _
  still h := ⟨h, rfl, rfl, Nat.le_refl _⟩
  prompt h h' := by rw [h] at h'; cases h'

theorem Heeds.mono (h : s.Heeds j k t) (hj : j ≤ v) (hk : k ≤ w) : s.Heeds v w t where
  now_le := h.now_le
  commands := h.commands
  still hs := by
    obtain ⟨h1, h2, h3, h4⟩ := h.still hs
    exact ⟨h1, h2, h3, by omega⟩
  prompt hs ht := by
    obtain ⟨m, h1, h2, h3, h4, h5, h6⟩ := h.prompt hs ht
    exact ⟨m, h1, h2, h3, h4, h5, by omega⟩

/-- What is not called off by the end was not called off at the start. -/
theorem Heeds.isCancelled_eq_false (h : s.Heeds j k t) (ht : t.isCancelled = false) :
    s.isCancelled = false := by
  cases hs : s.isCancelled
  · rfl
  · have := (h.still hs).1
    rw [ht] at this; cases this

theorem Heeds.trans (h : s.Heeds j k t) (h' : t.Heeds v w u) :
    s.Heeds (j + v) (max (k + v) w) u where
  now_le := Nat.le_trans h.now_le h'.now_le
  commands := h.commands.trans h'.commands
  still hs := by
    obtain ⟨h1, h2, h3, h4⟩ := h.still hs
    obtain ⟨h1', h2', h3', h4'⟩ := h'.still h1
    exact ⟨h1', h2'.trans h2, h3'.trans h3, by omega⟩
  prompt hs hu := by
    cases ht : t.isCancelled
    · obtain ⟨m, h1, h2, h3, h4, h5, h6⟩ := h'.prompt ht hu
      have := h.commands.length_le
      exact ⟨m, h1, Nat.le_trans h.now_le h2, by omega, h4, h5, by omega⟩
    · obtain ⟨m, h1, h2, h3, h4, h5, h6⟩ := h.prompt hs ht
      obtain ⟨-, h2', h3', h4'⟩ := h'.still ht
      have := h'.commands.length_le
      exact ⟨m, h2'.trans h1, h2, h3, by omega, h3'.trans h5, by omega⟩

theorem Heeds.after (h' : t.Heeds 0 k u) (h : s.Heeds 0 0 t) : s.Heeds 0 k u :=
  (h.trans h').mono (by omega) (by omega)

/-- After a session that is not called off, only calls on the way count. -/
theorem Heeds.of_trans (h : s.Heeds j k t) (ht : t.isCancelled = false) (h' : t.Heeds v w u) :
    s.Heeds 0 w u where
  now_le := Nat.le_trans h.now_le h'.now_le
  commands := h.commands.trans h'.commands
  still hs := by rw [h.isCancelled_eq_false ht] at hs; cases hs
  prompt _ hu := by
    obtain ⟨m, h1, h2, h3, h4, h5, h6⟩ := h'.prompt ht hu
    have := h.commands.length_le
    exact ⟨m, h1, Nat.le_trans h.now_le h2, by omega, h4, h5, h6⟩

/-- Time that moves on, or a signal that is raised, with no command. -/
theorem heeds_moveTo {time : Timeline} (h : s.now ≤ time.now)
    (hs : s.isCancelled → time.now = s.now ∧ time.isRaised s.signal) :
    s.Heeds 0 0 (s.moveTo time) where
  now_le := h
  commands := List.suffix_refl _
  still hc := ⟨(hs hc).2, by simp [moveTo, hc], (hs hc).1, Nat.le_refl _⟩
  prompt hc ht := by
    have ht : time.isRaised s.signal := ht
    exact ⟨⟨time.now, s.commands.length⟩, by simp [moveTo, hc, ht], h, Nat.le_refl _, Nat.le_refl _,
      rfl, Nat.le_refl _⟩

theorem heeds_raiseIf (b : Bool) : s.Heeds 0 0 (s.raiseIf b) := by
  cases b
  · exact .refl s
  · exact heeds_moveTo (by simp [now]) fun _ => by simp [now]

/-- A session that differs in the world, the status and the like only. -/
theorem heeds_of_eq (ht : t.time = s.time) (hs : t.signal = s.signal)
    (hc : t.calledOff = s.calledOff) (hh : t.commands = s.commands) : s.Heeds 0 0 t where
  now_le := by simp [now, ht]
  commands := hh ▸ List.suffix_refl _
  still h := by simpa [isCancelled, now, ht, hs, hc, hh] using h
  prompt h h' := by
    have : t.isCancelled = s.isCancelled := by simp [isCancelled, ht, hs]
    rw [this, h] at h'; cases h'

theorem heeds_note (e : Event) (h : e.command? = none) : s.Heeds 0 0 (s.note e) :=
  heeds_of_eq rfl rfl rfl (by simp [h])

theorem heeds_asked (q : Query) (r : Replied σ q.Answer) : s.Heeds 0 0 (s.asked q r) := by
  have h : s.Heeds 0 0 { s with world := r.state } := heeds_of_eq rfl rfl rfl rfl
  exact ((heeds_note (.asked q r.answer) rfl).after (heeds_raiseIf r.raises)).after h

theorem heeds_finished (c : Command) (r : Replied σ Bool) : s.Heeds 0 0 (s.finished c r) := by
  have h : s.Heeds 0 0 { s with world := r.state } := heeds_of_eq rfl rfl rfl rfl
  exact ((heeds_note (.ended c r.answer) rfl).after (heeds_raiseIf r.raises)).after h

/-- The beginning of a command: a call to stop that it makes itself comes after it. -/
theorem heeds_begun (c : Command) (b : Begun σ) : s.Heeds 1 0 (s.begun c b) := by
  have h : s.Heeds 1 0 (s.note (.did c s.status.snapshot.directive s.status.snapshot.detail)) := {
    now_le := Nat.le_refl _
    commands := List.suffix_cons c _
    still := fun h => ⟨h, rfl, rfl, Nat.le_refl _⟩
    prompt := fun h h' => by rw [isCancelled_note, h] at h'; cases h' }
  have hw := h.trans (t := s.note _) (heeds_of_eq (t := { s.note _ with world := b.state })
    rfl rfl rfl rfl)
  exact (hw.trans (heeds_raiseIf b.raises)).mono (by omega) (by omega)

theorem heeds_sleep (s : Session σ) (length : Nat) :
    s.Heeds 0 0 (s.moveTo (s.time.sleep s.signal length).2) :=
  heeds_moveTo (Timeline.now_le_sleep _ _ _) fun h => by
    rw [Timeline.sleep_of_isRaised _ _ h]
    exact ⟨rfl, h⟩

end Session

/-! ### Work -/

namespace Act

/-- Work heeds a call to stop from a session on: the sessions do, and it does not run out of rounds
once it is called off. -/
structure HeedsFrom (j k : Nat) (a : Act σ α) (s : Session σ) : Prop where
  session : s.Heeds j k (a.go s).2
  ends : (a.go s).1 = .error .endless → (a.go s).2.isCancelled = false

/-- Work heeds a call to stop. -/
def Heeds (j k : Nat) (a : Act σ α) : Prop := ∀ s, a.HeedsFrom j k s

variable {a : Act σ α} {f : α → Act σ β} {s t : Session σ} {j k v w : Nat}

theorem HeedsFrom.of_go {r : Except Halt α} (h : a.go s = (r, t)) (hs : s.Heeds j k t)
    (he : r = .error .endless → t.isCancelled = false) : a.HeedsFrom j k s :=
  ⟨by rw [h]; exact hs, by rw [h]; exact he⟩

theorem HeedsFrom.mono (h : a.HeedsFrom j k s) (hj : j ≤ v) (hk : k ≤ w) :
    a.HeedsFrom v w s :=
  ⟨h.session.mono hj hk, h.ends⟩

theorem HeedsFrom.of_calm (h : a.HeedsFrom j k s) (hs : s.isCancelled = false) :
    a.HeedsFrom 0 k s :=
  ⟨(Session.Heeds.refl s).of_trans hs h.session, h.ends⟩

theorem HeedsFrom.bind_ok {x : α} (hr : a.go s = (.ok x, t)) (h : s.Heeds j k t)
    (hx : (f x).HeedsFrom v w t) : (a >>= f).HeedsFrom (j + v) (max (k + v) w) s :=
  .of_go (go_bind_ok hr f) (h.trans hx.session) hx.ends

theorem HeedsFrom.bind_error {e : Halt} (hr : a.go s = (.error e, t)) (h : a.HeedsFrom j k s) :
    (a >>= f).HeedsFrom j k s := by
  obtain ⟨h, he⟩ := h
  rw [hr] at h he
  exact .of_go (go_bind_error hr f) h fun hn => he (by cases hn; rfl)

theorem HeedsFrom.bind (ha : a.HeedsFrom j k s)
    (hf : ∀ x t, a.go s = (.ok x, t) → (f x).HeedsFrom v w t) :
    (a >>= f).HeedsFrom (j + v) (max (k + v) w) s := by
  rcases hr : a.go s with ⟨e | x, t⟩
  · exact (ha.bind_error hr).mono (by omega) (by omega)
  · have h := ha.session
    rw [hr] at h
    exact .bind_ok hr h (hf x t hr)

/-- What comes after a wait or a look at the signal starts with no call to stop. -/
theorem HeedsFrom.bind_calm (ha : a.HeedsFrom 0 0 s)
    (hf : ∀ x t, a.go s = (.ok x, t) → t.isCancelled = false ∧ (f x).HeedsFrom j k t) :
    (a >>= f).HeedsFrom 0 k s := by
  rcases hr : a.go s with ⟨e | x, t⟩
  · exact (ha.bind_error hr).mono (by omega) (by omega)
  · have h := ha.session
    rw [hr] at h
    obtain ⟨ht, hx⟩ := hf x t hr
    exact .of_go (go_bind_ok hr f) (h.of_trans ht hx.session) hx.ends

theorem Heeds.mono (h : a.Heeds j k) (hj : j ≤ v) (hk : k ≤ w) : a.Heeds v w :=
  fun s => (h s).mono hj hk

/-- Work with no command in it. -/
theorem Heeds.prompt (h : a.Heeds 0 0) : a.Heeds 0 1 := h.mono (Nat.le_refl _) (by omega)

theorem Heeds.bind (ha : a.Heeds 0 1) (hf : ∀ x, (f x).Heeds 0 1) : (a >>= f).Heeds 0 1 :=
  fun s => (ha s).bind fun x t _ => hf x t

theorem Heeds.quiet_bind (ha : a.Heeds 0 0) (hf : ∀ x, (f x).Heeds j k) (hjk : j ≤ k) :
    (a >>= f).Heeds j k :=
  fun s => ((ha s).bind fun x t _ => hf x t).mono (by omega) (by omega)

theorem heeds_pure (x : α) : (pure x : Act σ α).Heeds 0 0 :=
  fun s => .of_go (go_pure s x) (.refl s) fun h => by cases h

theorem heeds_fail (e : Error) : (fail e : Act σ α).Heeds 0 0 :=
  fun s => .of_go (go_fail s e) (.refl s) fun h => by cases h

theorem heedsFrom_endless (h : s.isCancelled = false) :
    (throw .endless : Act σ α).HeedsFrom 0 0 s :=
  .of_go (go_throw s _) (.refl s) fun _ => h

theorem Heeds.tryCatch {handler : Halt → Act σ α} (ha : a.Heeds 0 1)
    (hf : ∀ e, (handler (.failed e)).Heeds 0 1) (hn : handler .endless = throw .endless) :
    (tryCatch a handler).Heeds 0 1 := by
  intro s
  obtain ⟨h, he⟩ := ha s
  have hg := go_tryCatch s a handler
  rcases hr : a.go s with ⟨(e | -) | x, t⟩ <;> rw [hr] at h he hg
  · exact .of_go hg (h.trans (hf e t).session) (hf e t).ends
  · refine .of_go (r := .error .endless) (hg.trans ?_) h fun _ => he rfl
    show (handler .endless).go t = _
    rw [hn, go_throw]
  · exact .of_go hg h fun hn => by cases hn

/-! ### Primitives -/

theorem heeds_modify {f : Session σ → Session σ} (ht : ∀ s, (f s).time = s.time)
    (hs : ∀ s, (f s).signal = s.signal) (hc : ∀ s, (f s).calledOff = s.calledOff)
    (hh : ∀ s, (f s).commands = s.commands) : (modify f : Act σ Unit).Heeds 0 0 :=
  fun s => .of_go rfl (Session.heeds_of_eq (ht s) (hs s) (hc s) (hh s)) fun h => by cases h

theorem heeds_publishDirective (directive detail : String) :
    (publishDirective directive detail : Act σ Unit).Heeds 0 0 :=
  heeds_modify (fun _ => rfl) (fun _ => rfl) (fun _ => rfl) fun _ => rfl

theorem heeds_publishLevels (levels : List (Job × UInt32)) :
    (publishLevels levels : Act σ Unit).Heeds 0 0 :=
  heeds_modify (fun _ => rfl) (fun _ => rfl) (fun _ => rfl) fun _ => rfl

theorem heeds_log (line : String) : (log line : Act σ Unit).Heeds 0 0 :=
  heeds_modify (fun _ => rfl) (fun _ => rfl) (fun _ => rfl) fun _ => rfl

theorem heeds_note (e : Event) (h : e.command? = none) : (note e : Act σ Unit).Heeds 0 0 :=
  fun s => .of_go (go_note s e) (Session.heeds_note e h) fun h => by cases h

theorem heeds_now : (now : Act σ Nat).Heeds 0 0 :=
  fun s => .of_go (go_now s) (.refl s) fun h => by cases h

theorem heeds_isCancelled : (isCancelled : Act σ Bool).Heeds 0 0 :=
  fun s => .of_go (go_isCancelled s) (.refl s) fun h => by cases h

theorem heeds_rest? (length : Nat) : (rest? length : Act σ Bool).Heeds 0 0 :=
  fun s => .of_go (go_rest? s length) (Session.heeds_sleep s length) fun h => by cases h

theorem heeds_rest (length : Nat) : (rest length : Act σ Unit).Heeds 0 0 := by
  intro s
  refine .of_go (go_rest s length) (Session.heeds_sleep s length) ?_
  intro h
  split at h <;> cases h

theorem heeds_check : (check : Act σ Unit).Heeds 0 0 := by
  intro s
  refine .of_go (go_check s) (.refl s) ?_
  intro h
  split at h <;> cases h

/-- A wait that comes to its end is not called off. -/
theorem isCancelled_of_rest? {length : Nat} (h : (rest? length).go s = (.ok true, t)) :
    t.isCancelled = false := by
  rw [go_rest?] at h
  obtain ⟨h1, rfl⟩ := Prod.mk.inj h
  have := s.time.sleep_fst s.signal length
  rw [Except.ok.inj h1] at this
  simpa using this

theorem isCancelled_of_rest {length : Nat} {x : Unit} (h : (rest length).go s = (.ok x, t)) :
    t.isCancelled = false := by
  rw [go_rest] at h
  obtain ⟨h1, rfl⟩ := Prod.mk.inj h
  split at h1
  · next hs => exact isCancelled_of_rest? (by rw [go_rest?, hs])
  · cases h1

theorem isCancelled_of_check {x : Unit} (h : check.go s = (.ok x, t)) : t.isCancelled = false := by
  rw [go_check] at h
  obtain ⟨h1, rfl⟩ := Prod.mk.inj h
  cases hs : s.isCancelled
  · rfl
  · rw [hs] at h1; cases h1

theorem Heeds.after_rest {length : Nat} (h : ∀ s, s.isCancelled = false → a.HeedsFrom j k s) :
    (rest length >>= fun _ => a).Heeds 0 k :=
  fun s => (heeds_rest length s).bind_calm fun _ t hr =>
    ⟨isCancelled_of_rest hr, h t (isCancelled_of_rest hr)⟩

theorem Heeds.after_check (h : ∀ s, s.isCancelled = false → a.HeedsFrom j k s) :
    (check >>= fun _ => a).Heeds 0 k :=
  fun s => (heeds_check s).bind_calm fun _ t hc =>
    ⟨isCancelled_of_check hc, h t (isCancelled_of_check hc)⟩

/-- Work that is left alone when it is called off before. -/
theorem Heeds.unless_cancelled (x : α) (h : a.Heeds j k) :
    (isCancelled >>= fun c => if c then pure x else a).Heeds 0 k := by
  intro s
  cases hs : s.isCancelled
  · refine (heeds_isCancelled s).bind_calm (j := j) ?_
    intro c t hc
    rw [go_isCancelled, hs] at hc
    cases hc
    exact ⟨hs, h _⟩
  · refine .of_go (r := .ok x) (t := s) ?_ ((Session.Heeds.refl s).mono (by omega) (by omega)) ?_
    · rw [go_bind_ok (go_isCancelled s), hs]; rfl
    · exact fun h => by cases h

/-- Work that is given up when a wait is called off. -/
theorem Heeds.unless_called_off {length : Nat} {x : α}
    (h : ∀ s, s.isCancelled = false → a.HeedsFrom j k s) :
    (rest? length >>= fun ended => if (!ended) = true then pure x else a).Heeds 0 k := by
  intro s
  refine ((heeds_rest? length s).bind (v := 0) (w := k) fun ended t he => ?_).mono (by omega)
    (by omega)
  cases ended
  · exact (heeds_pure x t).mono (by omega) (by omega)
  · have ht := isCancelled_of_rest? he
    exact (h t ht).of_calm ht

end Act

namespace Host

variable (h : Host σ)

theorem heeds_look (q : Query) : (h.look q).Heeds 0 0 :=
  fun s => .of_go (h.go_look s q) (Session.heeds_asked q _) fun h => by cases h

theorem heeds_begin (c : Command) : (h.begin c).Heeds 1 0 :=
  fun s => .of_go (h.go_begin s c) (Session.heeds_begun c _) fun h => by cases h

theorem heeds_finishing (c : Command) : (h.finishing c).Heeds 0 0 :=
  fun s => .of_go (h.go_finishing s c) (Session.heeds_finished c _) fun h => by cases h

theorem heeds_issue (c : Command) : (h.issue c).Heeds 1 0 :=
  fun s => .of_go (h.go_issue s c) (Session.heeds_begun c _) fun h => by cases h

/-- A command that may take time: the call to stop leaves it as it is. -/
theorem heeds_attempt? (c : Command) : (h.attempt? c).Heeds 0 0 := by
  refine Act.Heeds.unless_cancelled (j := 1) _ ?_
  intro s
  refine ((h.heeds_begin c s).bind (v := 0) (w := 0) fun delay t _ => ?_).mono (by omega) (by omega)
  have hf : (h.finishing c >>= fun b => (pure (some b) : Act σ _)).Heeds 0 0 :=
    (h.heeds_finishing c).quiet_bind (fun b => Act.heeds_pure _) (Nat.le_refl _)
  split
  · refine (Act.heeds_rest? delay).quiet_bind ?_ (Nat.le_refl _) t
    intro ended
    split
    · exact Act.heeds_pure _
    · exact hf
  · exact hf t

theorem heeds_attempt (c : Command) : (h.attempt c).Heeds 0 0 := by
  refine (h.heeds_attempt? c).quiet_bind ?_ (Nat.le_refl _)
  intro success
  split
  · exact Act.heeds_pure _
  · exact Act.heeds_fail _

end Host

end Progression
