/-!
Virtual time and the signals that call work off. Time moves only when something waits. A signal,
once raised, stays raised; an alarm raises its signal at a given time, while something waits.
-/

namespace Progression

/-- A signal to be raised at a time. -/
structure Alarm where
  time : Nat
  signal : Nat
  deriving DecidableEq, Repr

/-- The present time in milliseconds, the signals raised so far, and the alarms that are set. -/
structure Timeline where
  now : Nat := 0
  raised : List Nat := []
  alarms : List Alarm := []
  deriving DecidableEq, Repr, Inhabited

/-- The last second that a point in time can have. -/
def lastSecond : Nat := UInt64.size / 2 - 1

/-- The point in time `length` milliseconds after `now`, if there is one. -/
def deadline? (now length : Nat) : Option Nat :=
  if (now + length) / 1000 ≤ lastSecond then some (now + length) else none

/-- Whether a deadline has passed; what has no deadline never does. -/
def isPast (now : Nat) : Option Nat → Bool
  | some d => d ≤ now
  | none => false

/-- The length of a wait that would end past the last point in time: thirty years. -/
def longestWait : Nat := 30 * 365 * 86400 * 1000

namespace Timeline

variable (t : Timeline)

/-- Whether a signal is raised. -/
def isRaised (signal : Nat) : Bool := t.raised.contains signal

/-- Raises a signal. -/
def raise (signal : Nat) : Timeline :=
  if t.isRaised signal then t else { t with raised := signal :: t.raised }

def setAlarm (signal delay : Nat) : Timeline :=
  { t with alarms := ⟨t.now + delay, signal⟩ :: t.alarms }

/-- Time passes, and the alarms that fall due ring. -/
def elapse (length : Nat) : Timeline :=
  let now := t.now + length
  let due := (t.alarms.filter fun a => a.time ≤ now).map (·.signal)
  { now
    raised := due ++ t.raised
    alarms := t.alarms.filter fun a => now < a.time }

/-- The time of the next alarm of a signal. -/
def nextAlarm? (signal : Nat) : Option Nat :=
  ((t.alarms.filter fun a => a.signal = signal).map (·.time)).min?

/-- Waits until the given time has passed or the signal is raised, whichever comes first. The
answer is whether the wait came to its end. -/
def sleep (signal length : Nat) : Bool × Timeline :=
  if t.isRaised signal then (false, t)
  else
    let length := if (deadline? t.now length).isSome then length else longestWait
    match t.nextAlarm? signal with
    | some a => if a ≤ t.now + length then (false, t.elapse (a - t.now)) else (true, t.elapse length)
    | none => (true, t.elapse length)

/-- Waits for a signal; nothing comes of it when the signal is never raised. -/
def await? (signal : Nat) : Option Timeline :=
  if t.isRaised signal then some t
  else (t.nextAlarm? signal).map fun a => t.elapse (a - t.now)

/-! ### What waiting does -/

@[simp] theorem now_raise (signal : Nat) : (t.raise signal).now = t.now := by
  unfold raise
  split <;> rfl

@[simp] theorem isRaised_raise (signal : Nat) : (t.raise signal).isRaised signal = true := by
  unfold raise
  split
  · assumption
  · simp [isRaised]

@[simp] theorem now_elapse (length : Nat) : (t.elapse length).now = t.now + length := rfl

theorem isRaised_elapse_iff (signal length : Nat) : (t.elapse length).isRaised signal ↔
    t.isRaised signal ∨ ∃ a ∈ t.alarms, a.signal = signal ∧ a.time ≤ t.now + length := by
  simp only [isRaised, elapse, List.contains_iff_mem, List.mem_append, List.mem_map,
    List.mem_filter, decide_eq_true_eq]
  grind

theorem nextAlarm?_eq_some {signal a : Nat} (h : t.nextAlarm? signal = some a) :
    (∃ b ∈ t.alarms, b.signal = signal ∧ b.time = a) ∧
      ∀ b ∈ t.alarms, b.signal = signal → a ≤ b.time := by
  obtain ⟨hm, hl⟩ := List.min?_eq_some_iff.1 h
  refine ⟨by simpa [and_assoc] using hm, fun b hb hs => hl _ ?_⟩
  simp only [List.mem_map, List.mem_filter, decide_eq_true_eq]
  exact ⟨b, ⟨hb, hs⟩, rfl⟩

theorem nextAlarm?_eq_none {signal : Nat} (h : t.nextAlarm? signal = none) :
    ∀ b ∈ t.alarms, b.signal ≠ signal := by
  intro b hb hs
  simp only [nextAlarm?, List.min?_eq_none_iff, List.map_eq_nil_iff, List.filter_eq_nil_iff,
    decide_eq_true_eq] at h
  exact h b hb hs

theorem now_le_sleep (signal length : Nat) : t.now ≤ (t.sleep signal length).2.now := by
  unfold sleep
  split
  · exact Nat.le_refl _
  · generalize (if (deadline? t.now length).isSome then length else longestWait) = l
    cases t.nextAlarm? signal with
    | none => simp
    | some a => dsimp only; split <;> simp

/-- A wait that came to its end took as long as it was meant to. -/
theorem min_le_of_sleep {signal length : Nat} (h : (t.sleep signal length).1 = true) :
    t.now + min length longestWait ≤ (t.sleep signal length).2.now := by
  by_cases hr : t.isRaised signal
  · simp [sleep, hr] at h
  · simp only [sleep, hr, Bool.false_eq_true, if_false] at h ⊢
    have hl : min length longestWait ≤
        if (deadline? t.now length).isSome then length else longestWait := by split <;> omega
    revert h hl
    generalize (if (deadline? t.now length).isSome then length else longestWait) = l
    intro h hl
    cases ha : t.nextAlarm? signal with
    | none => exact Nat.add_le_add_left hl _
    | some a =>
      simp only [ha] at h ⊢
      split at h
      · cases h
      · rename_i hn
        rw [if_neg hn]
        exact Nat.add_le_add_left hl _

theorem sleep_of_isRaised {signal : Nat} (length : Nat) (h : t.isRaised signal) :
    t.sleep signal length = (false, t) := by simp [sleep, h]

/-- A wait comes to its end exactly when the signal is not raised by then. -/
theorem sleep_fst (signal length : Nat) :
    (t.sleep signal length).1 = !(t.sleep signal length).2.isRaised signal := by
  by_cases h : t.isRaised signal
  · simp [sleep_of_isRaised t length h, h]
  · simp only [sleep, h, Bool.false_eq_true, if_false]
    generalize (if (deadline? t.now length).isSome then length else longestWait) = l
    cases ha : t.nextAlarm? signal with
    | none =>
      have := nextAlarm?_eq_none t ha
      have hr : ¬ (t.elapse l).isRaised signal := by
        rw [isRaised_elapse_iff]; grind
      simpa using hr
    | some a =>
      obtain ⟨⟨b, hb, hs, hba⟩, hl⟩ := nextAlarm?_eq_some t ha
      dsimp only
      split
      · have hr : (t.elapse (a - t.now)).isRaised signal := by
          rw [isRaised_elapse_iff]; exact .inr ⟨b, hb, hs, by omega⟩
        simpa using hr
      · have hr : ¬ (t.elapse l).isRaised signal := by
          rw [isRaised_elapse_iff]; grind
        simpa using hr

end Timeline
end Progression
