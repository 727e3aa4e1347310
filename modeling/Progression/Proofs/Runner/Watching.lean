import Mathlib.Logic.Function.Iterate
import Progression.Proofs.Runner.Talking

/-!
Watches of any length. What ends a watch is told from the looks alone, without the counters:
`Concludes` has one condition for each way to end. `Recalls` is what a watch under way knows of the
looks behind it; one look keeps it or concludes, and so the watch ends with the first look that
does.
-/

namespace Progression.Runner

namespace Watch

variable {f : Nat → Sight} {n : Nat} {w w' : Watch} {r r' : Rest}

/-! ### What ends a watch -/

/-- What the looks up to one of them are, for the watch to end there. -/
def Concludes (f : Nat → Sight) (n : Nat) : Rest → Prop
  | .finished => f n = .idle ∧ ∃ m < n, f m = .busy
  | .neverSeenBusy => f n = .idle ∧ (∀ m < n, f m ≠ .busy) ∧ ∃ m < n, f m = .idle
  | .unreachable => 2 ≤ n ∧ f (n - 2) = .failed ∧ f (n - 1) = .failed ∧ f n = .failed

/-- The first look that concludes. -/
structure EndsAt (f : Nat → Sight) (n : Nat) (r : Rest) : Prop where
  concludes : Concludes f n r
  first : ∀ m < n, ∀ r, ¬ Concludes f m r

theorem Concludes.unique (h : Concludes f n r) (h' : Concludes f n r') : r = r' := by
  cases r with
  | finished =>
    obtain ⟨hi, m, hm, hb⟩ := h
    cases r' with
    | finished => rfl
    | neverSeenBusy => exact absurd hb (h'.2.1 m hm)
    | unreachable => rw [h'.2.2.2] at hi; cases hi
  | neverSeenBusy =>
    obtain ⟨hi, hb, -⟩ := h
    cases r' with
    | finished =>
      obtain ⟨-, m, hm, hb'⟩ := h'
      exact absurd hb' (hb m hm)
    | neverSeenBusy => rfl
    | unreachable => rw [h'.2.2.2] at hi; cases hi
  | unreachable =>
    obtain ⟨-, -, -, hf⟩ := h
    cases r' with
    | finished => rw [h'.1] at hf; cases hf
    | neverSeenBusy => rw [h'.1] at hf; cases hf
    | unreachable => rfl

theorem EndsAt.unique {m : Nat} (h : EndsAt f n r) (h' : EndsAt f m r') : n = m ∧ r = r' := by
  have hnm : n = m := by
    by_contra hne
    rcases Nat.lt_or_gt_of_ne hne with hlt | hlt
    · exact h'.first n hlt r h.concludes
    · exact h.first m hlt r' h'.concludes
  subst hnm
  exact ⟨rfl, h.concludes.unique h'.concludes⟩

/-- A look that concludes is the first one or comes after it. -/
theorem Concludes.exists_endsAt (h : Concludes f n r) : ∃ m ≤ n, ∃ r, EndsAt f m r := by
  induction n using Nat.strongRecOn generalizing r with
  | ind n ih =>
    by_cases hfirst : ∃ m < n, ∃ r, Concludes f m r
    · obtain ⟨m, hm, r', h'⟩ := hfirst
      obtain ⟨k, hk, hend⟩ := ih m hm h'
      exact ⟨k, by omega, hend⟩
    · exact ⟨n, Nat.le_refl _, r, h, fun m hm r' h' => hfirst ⟨m, hm, r', h'⟩⟩

/-! ### One look -/

/-- How many looks have failed since the last one that did not. -/
def failedBefore (f : Nat → Sight) : Nat → Nat
  | 0 => 0
  | n + 1 => if f n = .failed then failedBefore f n + 1 else 0

theorem two_le_failedBefore :
    2 ≤ failedBefore f n ↔ 2 ≤ n ∧ f (n - 2) = .failed ∧ f (n - 1) = .failed := by
  match n with
  | 0 => simp [failedBefore]
  | 1 =>
    simp only [failedBefore]
    split <;> simp
  | n + 2 =>
    simp only [failedBefore, Nat.add_sub_cancel, Nat.reduceSubDiff]
    by_cases h1 : f (n + 1) = .failed
    · by_cases h2 : f n = .failed
      · simp [h1, h2]
      · simp [h1, h2]
    · simp [h1]

/-- What a watch knows of the looks behind it. -/
structure Recalls (f : Nat → Sight) (n : Nat) (w : Watch) : Prop where
  seenBusy : w.seenBusy = true ↔ ∃ m < n, f m = .busy
  idle : w.seenBusy = false → (1 ≤ w.idle ↔ ∃ m < n, f m = .idle)
  failures : w.failures = failedBefore f n

theorem recalls_nothing : Recalls f 0 {} where
  seenBusy := by simp
  idle := by simp
  failures := rfl

/-- A look with which a watch ends concludes it. -/
theorem Recalls.concludes (h : Recalls f n w) (hs : w.step (f n) = .inl r) : Concludes f n r := by
  cases hf : f n with
  | busy => rw [hf] at hs; cases hs
  | idle =>
    simp only [hf, step] at hs
    split at hs
    · next hb =>
      cases hs
      exact ⟨hf, h.seenBusy.1 hb⟩
    · next hb =>
      have hb' : w.seenBusy = false := by simpa using hb
      split at hs
      · next hi =>
        cases hs
        have hidle : 1 ≤ w.idle := by unfold idleLimit at hi; omega
        exact ⟨hf, fun m hm hbusy => hb (h.seenBusy.2 ⟨m, hm, hbusy⟩), (h.idle hb').1 hidle⟩
      · cases hs
  | failed =>
    simp only [hf, step] at hs
    split at hs
    · next hl =>
      cases hs
      have htwo : 2 ≤ failedBefore f n := by
        have := h.failures
        unfold failureLimit at hl
        omega
      obtain ⟨hn, h2, h1⟩ := two_le_failedBefore.1 htwo
      exact ⟨hn, h2, h1, hf⟩
    · cases hs

/-- A look with which a watch goes on is recalled. -/
theorem Recalls.next (h : Recalls f n w) (hs : w.step (f n) = .inr w') : Recalls f (n + 1) w' := by
  cases hf : f n with
  | busy =>
    simp only [hf, step] at hs
    cases hs
    refine ⟨?_, by simp, ?_⟩
    · exact ⟨fun _ => ⟨n, Nat.lt_succ_self n, hf⟩, fun _ => rfl⟩
    · simp [failedBefore, hf]
  | idle =>
    simp only [hf, step] at hs
    split at hs
    · cases hs
    · next hb =>
      split at hs
      · cases hs
      · cases hs
        refine ⟨?_, ?_, ?_⟩
        · rw [Nat.exists_lt_succ_right, hf]
          simpa using h.seenBusy
        · intro _
          exact ⟨fun _ => ⟨n, Nat.lt_succ_self n, hf⟩, fun _ => Nat.succ_le_succ (Nat.zero_le _)⟩
        · simp [failedBefore, hf]
  | failed =>
    simp only [hf, step] at hs
    split at hs
    · cases hs
    · cases hs
      refine ⟨?_, ?_, ?_⟩
      · rw [Nat.exists_lt_succ_right, hf]
        simpa using h.seenBusy
      · rw [Nat.exists_lt_succ_right, hf]
        simpa using h.idle
      · simp [failedBefore, hf, h.failures]

/-- A look that concludes is one with which the watch does not go on. -/
theorem Recalls.not_concludes (h : Recalls f n w) (hs : w.step (f n) = .inr w') (r : Rest) :
    ¬ Concludes f n r := by
  intro hc
  cases r with
  | finished =>
    obtain ⟨hf, hb⟩ := hc
    simp [hf, step, h.seenBusy.2 hb] at hs
  | neverSeenBusy =>
    obtain ⟨hf, hb, hi⟩ := hc
    have hb' : w.seenBusy = false := by
      rw [← Bool.not_eq_true, h.seenBusy]
      rintro ⟨m, hm, hbusy⟩
      exact hb m hm hbusy
    have hidle : idleLimit ≤ w.idle + 1 := Nat.succ_le_succ ((h.idle hb').2 hi)
    simp [hf, step, hb', hidle] at hs
  | unreachable =>
    obtain ⟨hn, h2, h1, hf⟩ := hc
    have htwo := two_le_failedBefore.2 ⟨hn, h2, h1⟩
    have hlimit : failureLimit ≤ w.failures + 1 := by
      rw [h.failures]
      exact Nat.succ_le_succ htwo
    simp [hf, step, hlimit] at hs

/-! ### Many looks -/

/-- A watch that goes through given looks ends with the first that concludes it, if there is one. -/
theorem Recalls.ending?_cases (h : Recalls f n w) (k : Nat) :
    (∃ j < k, ∃ r, w.ending? ((List.range' n k).map f) = some (r, j + 1) ∧ Concludes f (n + j) r ∧
      ∀ m, n ≤ m → m < n + j → ∀ r, ¬ Concludes f m r) ∨
    (w.ending? ((List.range' n k).map f) = none ∧
      ∀ m, n ≤ m → m < n + k → ∀ r, ¬ Concludes f m r) := by
  induction k generalizing n w with
  | zero => exact .inr ⟨rfl, by omega⟩
  | succ k ih =>
    rw [List.range'_succ, List.map_cons]
    cases hs : w.step (f n) with
    | inl r =>
      refine .inl ⟨0, by omega, r, ?_, h.concludes hs, by omega⟩
      simp only [ending?, hs]
    | inr w' =>
      have hskip : ∀ j, (∀ m, n + 1 ≤ m → m < n + 1 + j → ∀ r, ¬ Concludes f m r) →
          ∀ m, n ≤ m → m < n + (j + 1) → ∀ r, ¬ Concludes f m r := by
        intro j hj m hm hlt
        rcases Nat.eq_or_lt_of_le hm with rfl | hlt'
        · exact h.not_concludes hs
        · exact hj m hlt' (by omega)
      rcases ih (h.next hs) with ⟨j, hj, r, hend, hc, hfirst⟩ | ⟨hend, hnone⟩
      · refine .inl ⟨j + 1, by omega, r, ?_, ?_, hskip j hfirst⟩
        · simp only [ending?, hs, hend, Option.map_some]
        · rwa [Nat.add_right_comm] at hc
      · refine .inr ⟨?_, hskip k hnone⟩
        simp only [ending?, hs, hend, Option.map_none]

theorem ending?_eq_some {k j : Nat} : ending? {} ((List.range' 0 k).map f) = some (r, j) ↔
    ∃ n < k, EndsAt f n r ∧ j = n + 1 := by
  constructor
  · intro h
    rcases (recalls_nothing (f := f)).ending?_cases k with ⟨n, hn, r', hend, hc, hfirst⟩ | ⟨hend, -⟩
    · rw [hend] at h
      cases h
      rw [Nat.zero_add] at hc
      exact ⟨n, hn, ⟨hc, fun m hm => hfirst m (Nat.zero_le m) (by omega)⟩, rfl⟩
    · rw [hend] at h
      cases h
  · rintro ⟨n, hn, hend, rfl⟩
    rcases (recalls_nothing (f := f)).ending?_cases k with ⟨m, -, r', he, hc, hfirst⟩ | ⟨-, hnone⟩
    · rw [Nat.zero_add] at hc
      have hm : EndsAt f m r' := ⟨hc, fun j hj => hfirst j (Nat.zero_le j) (by omega)⟩
      obtain ⟨rfl, rfl⟩ := hend.unique hm
      exact he
    · exact absurd hend.concludes (hnone n (Nat.zero_le n) (by omega) r)

theorem ending?_eq_none {k : Nat} : ending? {} ((List.range' 0 k).map f) = none ↔
    ∀ n < k, ∀ r, ¬ Concludes f n r := by
  constructor
  · intro h n hn r hc
    obtain ⟨m, hm, r', hend⟩ := hc.exists_endsAt
    rw [ending?_eq_some.2 ⟨m, by omega, hend, rfl⟩] at h
    cases h
  · intro h
    cases he : ending? {} ((List.range' 0 k).map f) with
    | none => rfl
    | some p =>
      obtain ⟨n, hn, hend, -⟩ := ending?_eq_some.1 he
      exact absurd hend.concludes (h n hn p.1)

/-! ### Watches that end -/

/-- Three looks that never show the runner at work show it at rest or are all that is needed. -/
theorem exists_idle_or_concludes (k : Nat) (h : ∀ m, k ≤ m → m < k + 3 → f m ≠ .busy) :
    (∃ m, k ≤ m ∧ m < k + 3 ∧ f m = .idle) ∨ Concludes f (k + 2) .unreachable := by
  by_cases hidle : ∃ m, k ≤ m ∧ m < k + 3 ∧ f m = .idle
  · exact .inl hidle
  · have hfailed : ∀ m, k ≤ m → m < k + 3 → f m = .failed := by
      intro m hm hlt
      cases hf : f m with
      | busy => exact absurd hf (h m hm hlt)
      | idle => exact absurd ⟨m, hm, hlt, hf⟩ hidle
      | failed => rfl
    refine .inr ⟨by omega, ?_, ?_, ?_⟩
    · exact hfailed (k + 2 - 2) (by omega) (by omega)
    · exact hfailed (k + 2 - 1) (by omega) (by omega)
    · exact hfailed (k + 2) (by omega) (by omega)

/-- Of a runner that is never at work, six looks are enough. -/
theorem exists_endsAt_of_quiet (h : ∀ m < 6, f m ≠ .busy) : ∃ n < 6, ∃ r, EndsAt f n r := by
  have hends : ∃ n < 6, ∃ r, Concludes f n r := by
    rcases exists_idle_or_concludes 0 fun m _ hm => h m (by omega) with ⟨i, -, hi, hfi⟩ | hc
    · rcases exists_idle_or_concludes 3 fun m _ hm => h m (by omega) with ⟨j, hj, hlt, hfj⟩ | hc
      · exact ⟨j, hlt, .neverSeenBusy, hfj, fun m hm => h m (by omega), i, by omega, hfi⟩
      · exact ⟨5, by omega, _, hc⟩
    · exact ⟨2, by omega, _, hc⟩
  obtain ⟨n, hn, r, hc⟩ := hends
  obtain ⟨m, hm, r', hend⟩ := hc.exists_endsAt
  exact ⟨m, by omega, r', hend⟩

/-- Of a runner that was at work for the last time, three more looks are enough. -/
theorem exists_endsAt_of_rested {k : Nat} (hk : f k = .busy)
    (h : ∀ m, k < m → m ≤ k + 3 → f m ≠ .busy) : ∃ n ≤ k + 3, ∃ r, EndsAt f n r := by
  have hends : ∃ n ≤ k + 3, ∃ r, Concludes f n r := by
    rcases exists_idle_or_concludes (k + 1) fun m hm hlt => h m (by omega) (by omega) with
      ⟨i, hi, hlt, hfi⟩ | hc
    · exact ⟨i, by omega, .finished, hfi, k, by omega, hk⟩
    · exact ⟨k + 3, Nat.le_refl _, _, hc⟩
  obtain ⟨n, hn, r, hc⟩ := hends
  obtain ⟨m, hm, r', hend⟩ := hc.exists_endsAt
  exact ⟨m, by omega, r', hend⟩

/-- Only a runner that is at work again and again is watched for ever. -/
theorem exists_busy_of_endless (h : ∀ n r, ¬ Concludes f n r) (k : Nat) : ∃ n ≥ k, f n = .busy := by
  by_contra hno
  have hquiet : ∀ m ≥ k, f m ≠ .busy := fun m hm hb => hno ⟨m, hm, hb⟩
  rcases exists_idle_or_concludes k fun m hm _ => hquiet m hm with ⟨i, hi, -, hfi⟩ | hc
  · by_cases hbusy : ∃ m < i, f m = .busy
    · exact h i .finished ⟨hfi, hbusy⟩
    · have hnever : ∀ m < 6, f m ≠ .busy := by
        intro m _ hb
        by_cases hm : m < i
        · exact hbusy ⟨m, hm, hb⟩
        · exact hquiet m (by omega) hb
      obtain ⟨n, -, r, hend⟩ := exists_endsAt_of_quiet hnever
      exact h n r hend.concludes
  · exact h _ _ hc

/-- Two looks that show the runner at rest, and only failures besides, never three in a row. -/
structure TwiceIdle (f : Nat → Sight) (m n : Nat) : Prop where
  lt : m < n
  first_le : m ≤ 2
  last_le : n ≤ m + 3
  first : f m = .idle
  last : f n = .idle
  failed : ∀ j < n, j ≠ m → f j = .failed

theorem EndsAt.twiceIdle (h : EndsAt f n .neverSeenBusy) : ∃ m, TwiceIdle f m n := by
  obtain ⟨⟨hn, hbusy, m, hm, hfm⟩, hfirst⟩ := h
  have hfailed : ∀ j < n, j ≠ m → f j = .failed := by
    intro j hj hne
    cases hfj : f j with
    | busy => exact absurd hfj (hbusy j hj)
    | idle =>
      -- The later one of the two would have ended the watch.
      rcases Nat.lt_or_gt_of_ne hne with hlt | hlt
      · exact absurd ⟨hfm, fun i hi => hbusy i (by omega), j, hlt, hfj⟩ (hfirst m hm .neverSeenBusy)
      · exact absurd ⟨hfj, fun i hi => hbusy i (by omega), m, hlt, hfm⟩ (hfirst j hj .neverSeenBusy)
    | failed => rfl
  have hthree : ∀ i, i + 2 < n → (∀ j, i ≤ j → j ≤ i + 2 → j ≠ m) → False := by
    intro i hi hne
    refine hfirst (i + 2) hi .unreachable ⟨by omega, ?_, ?_, ?_⟩
    · exact hfailed (i + 2 - 2) (by omega) (hne _ (by omega) (by omega))
    · exact hfailed (i + 2 - 1) (by omega) (hne _ (by omega) (by omega))
    · exact hfailed (i + 2) (by omega) (hne _ (by omega) (by omega))
  have hm2 : m ≤ 2 := by
    by_contra hlt
    exact hthree 0 (by omega) (by omega)
  have hn3 : n ≤ m + 3 := by
    by_contra hlt
    exact hthree (m + 1) (by omega) (by omega)
  exact ⟨m, hm, hm2, hn3, hfm, hn, hfailed⟩

theorem TwiceIdle.endsAt {m : Nat} (h : TwiceIdle f m n) : EndsAt f n .neverSeenBusy := by
  have hbusy : ∀ j < n, f j ≠ .busy := by
    intro j hj hb
    by_cases hjm : j = m
    · subst hjm
      rw [h.first] at hb
      cases hb
    · rw [h.failed j hj hjm] at hb
      cases hb
  have hidle : ∀ j < n, f j = .idle → j = m := by
    intro j hj hi
    by_contra hjm
    rw [h.failed j hj hjm] at hi
    cases hi
  refine ⟨⟨h.last, hbusy, m, h.lt, h.first⟩, ?_⟩
  intro i hi r hc
  cases r with
  | finished =>
    obtain ⟨-, j, hj, hb⟩ := hc
    exact hbusy j (by omega) hb
  | neverSeenBusy =>
    obtain ⟨hfi, -, j, hj, hfj⟩ := hc
    have := hidle i hi hfi
    have := hidle j (by omega) hfj
    omega
  | unreachable =>
    obtain ⟨hle, h2, h1, h0⟩ := hc
    have hne : ∀ j, f j = .failed → j ≠ m := by
      rintro j hj rfl
      rw [h.first] at hj
      cases hj
    have := hne _ h2
    have := hne _ h1
    have := hne _ h0
    have := h.first_le
    have := h.last_le
    omega

end Watch

/-! ### Watches over a line -/

namespace Client

open Watch

variable {σ : Type} (c : Client σ) (line : Line σ)

/-- What the looks of a watch show, one after the other. -/
def sights (n : Nat) : Sight := c.sight (c.looked^[n] line)

/-- A watch is decided by what its looks show. -/
theorem go_awaitRest (k n : Nat) (w : Watch) :
    (c.awaitRest k w).go (c.looked^[n] line) =
      match w.ending? ((List.range' n k).map (c.sights line)) with
      | some (r, j) => (.ok r, c.looked^[n + j] line)
      | none => (.error .endless, c.looked^[n + k] line) := by
  induction k generalizing n w with
  | zero => rfl
  | succ k ih =>
    have hstep : c.looked (c.looked^[n] line) = c.looked^[n + 1] line :=
      (Function.iterate_succ_apply' _ _ _).symm
    rw [awaitRest, Talk.go_bind_ok (c.go_look _), hstep, List.range'_succ, List.map_cons, ending?]
    have hsight : c.sight (c.looked^[n] line) = c.sights line n := rfl
    rw [hsight]
    cases w.step (c.sights line n) with
    | inl r => rfl
    | inr w' =>
      dsimp only
      rw [ih]
      cases w'.ending? ((List.range' (n + 1) k).map (c.sights line)) with
      | none => rw [Option.map_none, Nat.add_right_comm, Nat.add_assoc]
      | some p =>
        have hj : n + 1 + p.2 = n + (p.2 + 1) := by omega
        show (_, c.looked^[n + 1 + p.2] line) = (_, c.looked^[n + (p.2 + 1)] line)
        rw [hj]

theorem awaitRest_eq_ok {k : Nat} {r : Rest} {l : Line σ} :
    (c.awaitRest k {}).go line = (.ok r, l) ↔
      ∃ n < k, EndsAt (c.sights line) n r ∧ l = c.looked^[n + 1] line := by
  have hgo := c.go_awaitRest line k 0 {}
  rw [Function.iterate_zero_apply] at hgo
  rw [hgo]
  constructor
  · intro h
    cases he : ending? {} ((List.range' 0 k).map (c.sights line)) with
    | none => rw [he] at h; cases h
    | some p =>
      rw [he] at h
      cases h
      obtain ⟨n, hn, hend, hj⟩ := ending?_eq_some.1 he
      exact ⟨n, hn, hend, by rw [hj, Nat.zero_add]⟩
  · rintro ⟨n, hn, hend, rfl⟩
    rw [ending?_eq_some.2 ⟨n, hn, hend, rfl⟩]
    dsimp only
    rw [Nat.zero_add]

theorem awaitRest_eq_error {k : Nat} {e : Halt} {l : Line σ} :
    (c.awaitRest k {}).go line = (.error e, l) ↔
      (∀ n < k, ∀ r, ¬ Concludes (c.sights line) n r) ∧ e = .endless ∧ l = c.looked^[k] line := by
  have hgo := c.go_awaitRest line k 0 {}
  rw [Function.iterate_zero_apply] at hgo
  rw [hgo, ← ending?_eq_none]
  constructor
  · intro h
    cases he : ending? {} ((List.range' 0 k).map (c.sights line)) with
    | none =>
      rw [he] at h
      cases h
      exact ⟨rfl, rfl, by rw [Nat.zero_add]⟩
    | some p => rw [he] at h; cases h
  · rintro ⟨he, rfl, rfl⟩
    rw [he]
    dsimp only
    rw [Nat.zero_add]

/-- Every sequence of sights is one that some runner shows. -/
theorem sights_showing (f : Nat → Sight) (sent : List Exchange) :
    (showing f).sights { remote := 0, exchanges := sent } = f := by
  have hremote : ∀ n, ((showing f).looked^[n] { remote := 0, exchanges := sent }).remote = n := by
    intro n
    induction n with
    | zero => rfl
    | succ n ih => rw [Function.iterate_succ_apply', (looks_showing _).2, ih]
  funext n
  rw [sights, (looks_showing _).1, hremote]

/-- A watch ends with the first look at which what was seen so far is one of three things, no two of
them at once, and it goes on until then. Six looks are enough at a runner that is not at work, and
three more at one that was; only a runner that is at work again and again is watched for ever. -/
theorem awaitRest_follows_looks (c : Client σ) (line : Line σ) :
    (∀ n r r', Concludes (c.sights line) n r → Concludes (c.sights line) n r' → r = r') ∧
    (∀ k r l, (c.awaitRest k {}).go line = (.ok r, l) ↔
      ∃ n < k, EndsAt (c.sights line) n r ∧ l = c.looked^[n + 1] line) ∧
    (∀ k e l, (c.awaitRest k {}).go line = (.error e, l) ↔
      (∀ n < k, ∀ r, ¬ Concludes (c.sights line) n r) ∧ e = .endless ∧ l = c.looked^[k] line) ∧
    ((∀ n < 6, c.sights line n ≠ .busy) → ∃ n < 6, ∃ r, EndsAt (c.sights line) n r) ∧
    (∀ k, c.sights line k = .busy → (∀ m, k < m → m ≤ k + 3 → c.sights line m ≠ .busy) →
      ∃ n ≤ k + 3, ∃ r, EndsAt (c.sights line) n r) ∧
    ((∀ k, ((c.awaitRest k {}).go line).1 = .error .endless) →
      ∀ k, ∃ n ≥ k, c.sights line n = .busy) := by
  refine ⟨fun _ _ _ => Concludes.unique, fun _ _ _ => c.awaitRest_eq_ok line,
    fun _ _ _ => c.awaitRest_eq_error line, exists_endsAt_of_quiet,
    fun _ => exists_endsAt_of_rested, ?_⟩
  intro hendless
  refine exists_busy_of_endless fun n r hc => ?_
  have hrun : (c.awaitRest (n + 1) {}).go line = (.error .endless, _) :=
    Prod.ext (hendless (n + 1)) rfl
  exact ((c.awaitRest_eq_error line).1 hrun).1 n (Nat.lt_succ_self n) r hc

/-- A runner that cannot be seen, is at rest, is at work, cannot be seen twice and is at rest; one
that is never at work; and one that always is. -/
theorem awaitRest_follows_looks_of_faults :
    let c := showing fun n => [.failed, .idle, .busy, .failed, .failed].getD n .idle
    let quiet := showing fun n => [.failed, .failed].getD n .idle
    let restless := showing fun _ => .busy
    (c.awaitRest 9 {}).go { remote := 0 } = (.ok .finished, c.looked^[6] { remote := 0 }) ∧
      (∃ n ≤ 5, ∃ r, EndsAt (c.sights { remote := 0 }) n r) ∧
      (∃ n < 6, ∃ r, EndsAt (quiet.sights { remote := 0 }) n r) ∧
      ∀ k, ∃ n ≥ k, restless.sights { remote := 0 } n = .busy := by
  intro c quiet restless
  obtain ⟨-, hok, -, -, hrested, -⟩ := awaitRest_follows_looks c { remote := 0 }
  obtain ⟨-, -, -, hquiet, -, -⟩ := awaitRest_follows_looks quiet { remote := 0 }
  obtain ⟨-, -, herror, -, -, hrestless⟩ := awaitRest_follows_looks restless { remote := 0 }
  rw [sights_showing] at hok hrested hquiet herror hrestless
  rw [sights_showing, sights_showing, sights_showing]
  refine ⟨?_, hrested 2 rfl ?_, hquiet (by decide), hrestless fun k => ?_⟩
  · have hend : ending? {} ((List.range' 0 9).map
        fun n => [Sight.failed, .idle, .busy, .failed, .failed].getD n .idle) =
          some (.finished, 6) := rfl
    obtain ⟨n, hn, h, hlast⟩ := ending?_eq_some.1 hend
    cases hlast
    exact (hok 9 .finished _).2 ⟨5, hn, h, rfl⟩
  · intro m hlt hle
    have hm : m = 3 ∨ m = 4 ∨ m = 5 := by omega
    rcases hm with rfl | rfl | rfl <;> decide
  · have hnone : ∀ n < k, ∀ r, ¬ Concludes (fun _ => Sight.busy) n r := by
      rintro n - r h
      cases r with
      | finished => cases h.1
      | neverSeenBusy => cases h.1
      | unreachable => cases h.2.1
    rw [(herror k .endless _).2 ⟨hnone, rfl, rfl⟩]

/-- A runner that was never seen at work counts as done after two looks that show it at rest, with
nothing but failures before and between them. The looks are the last two if no look fails after one
that shows the runner at rest. -/
theorem neverSeenBusy_after_two_idle (c : Client σ) (line : Line σ) :
    (∀ k l, (c.awaitRest k {}).go line = (.ok .neverSeenBusy, l) ↔
      ∃ m n, n < k ∧ TwiceIdle (c.sights line) m n ∧ l = c.looked^[n + 1] line) ∧
    ∀ m n, TwiceIdle (c.sights line) m n →
      (∀ j < n, c.sights line j = .idle → c.sights line (j + 1) ≠ .failed) →
      c.sights line (n - 1) = .idle ∧ c.sights line n = .idle := by
  refine ⟨fun k l => ?_, ?_⟩
  · rw [awaitRest_eq_ok]
    constructor
    · rintro ⟨n, hn, hend, rfl⟩
      obtain ⟨m, h⟩ := hend.twiceIdle
      exact ⟨m, n, hn, h, rfl⟩
    · rintro ⟨m, n, hn, h, rfl⟩
      exact ⟨n, hn, h.endsAt, rfl⟩
  · intro m n h hnext
    have hlast : n = m + 1 := by
      by_contra hne
      have := h.lt
      exact hnext m h.lt h.first (h.failed (m + 1) (by omega) (by omega))
    subst hlast
    exact ⟨h.first, h.last⟩

/-- A runner that cannot be seen at first, and is at rest then. -/
theorem neverSeenBusy_after_two_idle_of_rest :
    let c := showing fun n => [.failed].getD n .idle
    (c.awaitRest 3 {}).go { remote := 0 } = (.ok .neverSeenBusy, c.looked^[3] { remote := 0 }) ∧
      c.sights { remote := 0 } 1 = .idle ∧ c.sights { remote := 0 } 2 = .idle := by
  intro c
  obtain ⟨hends, hlast⟩ := neverSeenBusy_after_two_idle c { remote := 0 }
  rw [sights_showing] at hends hlast ⊢
  have htwice : TwiceIdle (fun n => [Sight.failed].getD n .idle) 1 2 := by
    refine ⟨by decide, by decide, by decide, rfl, rfl, ?_⟩
    intro j hj hne
    have hj0 : j = 0 := by omega
    subst hj0
    rfl
  refine ⟨(hends 3 _).2 ⟨1, 2, by decide, htwice, rfl⟩, hlast 1 2 htwice ?_⟩
  intro j hj _
  have hj : j = 0 ∨ j = 1 := by omega
  rcases hj with rfl | rfl <;> decide

/-- The two looks need not be the last two: one between them may have failed. -/
theorem neverSeenBusy_over_failure : ¬ ∀ (c : Client Nat) (line : Line Nat) (n : Nat),
    (c.awaitRest (n + 2) {}).go line = (.ok .neverSeenBusy, c.looked^[n + 2] line) →
      c.sights line n = .idle ∧ c.sights line (n + 1) = .idle := by
  intro h
  let f : Nat → Sight := fun n => [.idle, .failed].getD n .idle
  have htwice : TwiceIdle f 0 2 := by
    refine ⟨by decide, by decide, by decide, rfl, rfl, ?_⟩
    intro j hj hne
    have hj1 : j = 1 := by omega
    subst hj1
    rfl
  have hrun : ((showing f).awaitRest 3 {}).go { remote := 0 } =
      (.ok .neverSeenBusy, (showing f).looked^[3] { remote := 0 }) := by
    rw [awaitRest_eq_ok, sights_showing]
    exact ⟨2, by decide, htwice.endsAt, rfl⟩
  have hidle := (h _ _ 1 hrun).1
  rw [sights_showing] at hidle
  cases hidle

end Client
end Progression.Runner
