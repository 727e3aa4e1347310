import Progression.Proofs.Except
import Progression.Session

/-!
What work does to a session: `Act.go` runs it, and each primitive has one equation. The equations
of the primitives that touch the game are stated with the sessions of `Session.asked`,
`Session.begun` and `Session.finished`, so that nothing after this file opens a primitive.
-/

namespace Progression

namespace Act

variable {σ α β : Type}

/-- The result of work in a session, and the session it leaves. -/
def go (a : Act σ α) (s : Session σ) : Except Halt α × Session σ := a.run s

theorem go_eq_of_fst {a : Act σ α} {s : Session σ} {r : Except Halt α} (h : (a.go s).1 = r) :
    a.go s = (r, (a.go s).2) := Prod.ext h rfl

/-! ### Sequences -/

variable (s : Session σ)

@[simp] theorem go_pure (x : α) : (pure x : Act σ α).go s = (.ok x, s) := rfl

@[simp] theorem go_throw (e : Halt) : (throw e : Act σ α).go s = (.error e, s) := rfl

@[simp] theorem go_fail (e : Error) : (fail e : Act σ α).go s = (.error (.failed e), s) := rfl

theorem go_bind (a : Act σ α) (f : α → Act σ β) :
    (a >>= f).go s = match a.go s with
      | (.ok x, t) => (f x).go t
      | (.error e, t) => (.error e, t) := by
  refine (Except.run_bind a f s).trans ?_
  unfold go
  rcases ExceptT.run a s with ⟨e | x, t⟩ <;> rfl

variable {s} in
theorem go_bind_ok {a : Act σ α} {t : Session σ} {x : α} (h : a.go s = (.ok x, t))
    (f : α → Act σ β) : (a >>= f).go s = (f x).go t := by rw [go_bind, h]

variable {s} in
theorem go_bind_error {a : Act σ α} {t : Session σ} {e : Halt} (h : a.go s = (.error e, t))
    (f : α → Act σ β) : (a >>= f).go s = (.error e, t) := by rw [go_bind, h]

variable {s} in
theorem go_bind_eq_ok {a : Act σ α} {f : α → Act σ β} {t : Session σ} {y : β} :
    (a >>= f).go s = (.ok y, t) ↔
      ∃ x u, a.go s = (.ok x, u) ∧ (f x).go u = (.ok y, t) := by
  rw [go_bind]
  rcases a.go s with ⟨e | x, u⟩
  · simp
  · constructor
    · exact fun h => ⟨x, u, rfl, h⟩
    · rintro ⟨x', u', h, h'⟩
      cases h
      exact h'

variable {s} in
theorem go_bind_eq_error {a : Act σ α} {f : α → Act σ β} {t : Session σ} {e : Halt} :
    (a >>= f).go s = (.error e, t) ↔
      a.go s = (.error e, t) ∨ ∃ x u, a.go s = (.ok x, u) ∧ (f x).go u = (.error e, t) := by
  rw [go_bind]
  rcases a.go s with ⟨e' | x, u⟩
  · simp
  · constructor
    · exact fun h => .inr ⟨x, u, rfl, h⟩
    · rintro (h | ⟨x', u', h, h'⟩)
      · cases h
      · cases h
        exact h'

theorem go_tryCatch (a : Act σ α) (f : Halt → Act σ α) :
    (tryCatch a f).go s = match a.go s with
      | (.ok x, t) => (.ok x, t)
      | (.error e, t) => (f e).go t := by
  refine (Except.run_tryCatch a f s).trans ?_
  unfold go
  rcases ExceptT.run a s with ⟨e | x, t⟩ <;> rfl

/-! ### Primitives that do not touch the game -/

theorem go_now : (now : Act σ Nat).go s = (.ok s.now, s) := rfl

theorem go_isCancelled : (isCancelled : Act σ Bool).go s = (.ok s.isCancelled, s) := rfl

theorem go_note (e : Event) : (note e : Act σ Unit).go s = (.ok (), s.note e) := rfl

theorem go_rest? (length : Nat) : (rest? length : Act σ Bool).go s =
    (.ok (s.time.sleep s.signal length).1, s.moveTo (s.time.sleep s.signal length).2) := rfl

theorem go_check : (check : Act σ Unit).go s =
    (if s.isCancelled then .error (.failed .cancelled) else .ok (), s) := by
  unfold check
  rw [go_bind_ok (go_isCancelled s)]
  split <;> rfl

theorem go_rest (length : Nat) : (rest length : Act σ Unit).go s =
    (if (s.time.sleep s.signal length).1 then .ok () else .error (.failed .cancelled),
      s.moveTo (s.time.sleep s.signal length).2) := by
  unfold rest
  rw [go_bind_ok (go_rest? s length)]
  cases (s.time.sleep s.signal length).1 <;> rfl

end Act

/-! ### Primitives that touch the game -/

namespace Host

variable {σ : Type} (h : Host σ) (s : Session σ)

theorem go_look (q : Query) : (h.look q).go s =
    (.ok (h.ask q s.now s.world).answer, s.asked q (h.ask q s.now s.world)) := rfl

theorem go_begin (c : Command) : (h.begin c).go s =
    (.ok (h.start c s.now s.world).delay, s.begun c (h.start c s.now s.world)) := rfl

theorem go_finishing (c : Command) : (h.finishing c).go s =
    (.ok (h.finish c s.now s.world).answer, s.finished c (h.finish c s.now s.world)) := rfl

theorem go_issue (c : Command) : (h.issue c).go s =
    (.ok (), s.begun c (h.start c s.now s.world)) := rfl

end Host
end Progression
