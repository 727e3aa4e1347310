/-!
Results that may be errors, in sequence: by themselves, and with a state that is left behind in
either case.
-/

namespace Progression.Except

variable {ε α β : Type}

theorem exists_eq_ok {x : Except ε α} (h : x.toOption.isSome = true) : ∃ a, x = .ok a := by
  cases x with
  | error e => cases h
  | ok a => exact ⟨a, rfl⟩

theorem exists_eq_ok_and {x : Except ε α} {p : α → Bool} (h : x.toOption.any p = true) :
    ∃ a, x = .ok a ∧ p a = true := by
  cases x with
  | error e => cases h
  | ok a => exact ⟨a, rfl, h⟩

theorem bind_eq_ok {x : Except ε α} {f : α → Except ε β} {b : β} :
    x >>= f = .ok b ↔ ∃ a, x = .ok a ∧ f a = .ok b := by
  cases x with
  | error e => exact ⟨nofun, fun ⟨_, h, _⟩ => nomatch h⟩
  | ok a => exact ⟨fun h => ⟨a, rfl, h⟩, fun ⟨_, h, hf⟩ => by cases h; exact hf⟩

theorem bind_eq_error {x : Except ε α} {f : α → Except ε β} {e : ε} :
    x >>= f = .error e ↔ x = .error e ∨ ∃ a, x = .ok a ∧ f a = .error e := by
  cases x with
  | error e' =>
    refine ⟨fun h => .inl (by cases h; rfl), ?_⟩
    rintro (h | ⟨_, h, _⟩)
    · cases h; rfl
    · cases h
  | ok a => exact ⟨fun h => .inr ⟨a, rfl, h⟩, by rintro (h | ⟨_, h, hf⟩) <;> cases h; exact hf⟩

/-! ### With a state -/

variable {τ : Type}

theorem run_bind (a : ExceptT ε (StateM τ) α) (f : α → ExceptT ε (StateM τ) β) (s : τ) :
    ExceptT.run (a >>= f) s = match a.run s with
      | (.ok x, t) => (f x).run t
      | (.error e, t) => (.error e, t) := by
  show (bind (m := StateM τ) a (ExceptT.bindCont f)) s = _
  simp only [bind, StateT.bind, ExceptT.run]
  rcases a s with ⟨e | x, t⟩ <;> rfl

theorem run_tryCatch (a : ExceptT ε (StateM τ) α) (f : ε → ExceptT ε (StateM τ) α) (s : τ) :
    ExceptT.run (tryCatch a f) s = match a.run s with
      | (.ok x, t) => (.ok x, t)
      | (.error e, t) => (f e).run t := by
  show (ExceptT.tryCatch a f : ExceptT ε (StateM τ) α) s = _
  simp only [ExceptT.tryCatch, ExceptT.mk, bind, StateT.bind, ExceptT.run]
  rcases a s with ⟨e | x, t⟩ <;> rfl

end Progression.Except
