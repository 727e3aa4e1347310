import Progression.Proofs.Leveling.Ascent

/-!
How work stops. `Act.StopsWith P` says that `P` holds of every reason for which work stops and of the
session it leaves then; it holds of a sequence when it holds of its parts. An unlock stops because
the work is called off, because something it waits for does not come to its end, or because one of
its stages fails.
-/

namespace Progression

variable {σ α β : Type}

namespace Act

/-- Whenever work stops, it stops with a reason that holds of the session it leaves. -/
def StopsWith (P : Session σ → Halt → Prop) (a : Act σ α) : Prop :=
  ∀ s t e, a.go s = (.error e, t) → P t e

variable {P : Session σ → Halt → Prop} {a : Act σ α} {f : α → Act σ β}

theorem StopsWith.bind (ha : a.StopsWith P) (hf : ∀ x, (f x).StopsWith P) :
    (a >>= f).StopsWith P := by
  intro s t e h
  rcases hr : a.go s with ⟨e' | x, u⟩
  · rw [go_bind_error hr] at h
    cases h
    exact ha s t e hr
  · rw [go_bind_ok hr] at h
    exact hf x u t e h

theorem StopsWith.mono {Q : Session σ → Halt → Prop} (ha : a.StopsWith P)
    (h : ∀ t e, P t e → Q t e) : a.StopsWith Q := fun s t e he => h t e (ha s t e he)

theorem stopsWith_pure (x : α) : (pure x : Act σ α).StopsWith P := fun _ _ _ h => by cases h

theorem stopsWith_modify (f : Session σ → Session σ) : (modify f : Act σ Unit).StopsWith P :=
  fun _ _ _ h => by cases h

theorem stopsWith_fail {e : Error} (h : ∀ t, P t (.failed e)) : (fail e : Act σ α).StopsWith P :=
  fun _ _ _ he => by cases he; exact h _

theorem stopsWith_check (h : ∀ t, P t (.failed .cancelled)) :
    (check : Act σ Unit).StopsWith P := by
  refine StopsWith.bind (fun _ _ _ he => by cases he) ?_
  intro cancelled
  split
  · exact stopsWith_fail h
  · exact stopsWith_pure ()

theorem stopsWith_rest (h : ∀ t, P t (.failed .cancelled)) (length : Nat) :
    (rest length : Act σ Unit).StopsWith P := by
  refine StopsWith.bind (fun _ _ _ he => by cases he) ?_
  intro ended
  split
  · exact stopsWith_fail h
  · exact stopsWith_pure ()

end Act

theorem Host.Looks.stopsWith {h : Host σ} {a : Act σ α} (ha : h.Looks a)
    {P : Session σ → Halt → Prop} : a.StopsWith P := fun _ _ _ he => absurd he ha.not_error

namespace Setup

variable (p : Setup σ) (u : Unlock)

/-- Why an unlock stops: it is called off, it waits for something that does not come to its end, or
a stage of it fails. -/
inductive UnlockHalts (t : Session σ) : Halt → Prop
  | halts {e} : p.Halts t e → UnlockHalts t e
  | failed (stage reason : String) : UnlockHalts t (.failed (.unlockStep u.job.title stage reason))

theorem looks_isCalledFor (stage : UnlockStage) : p.host.Looks (p.isCalledFor u stage) := by
  cases stage with
  | prerequisite =>
    rw [isCalledFor_prerequisite]
    split
    · exact Host.looks_pure false
    · exact (Host.looks_look _).bind fun _ => Host.looks_pure _
  | acquire =>
    refine (Host.looks_look _).bind ?_
    intro done
    split
    · exact Host.looks_pure false
    · exact (Host.looks_look _).bind fun _ => Host.looks_pure _
  | deliver => exact Host.looks_look _
  | switch =>
    refine (Host.looks_look _).bind ?_
    intro done
    split
    · exact Host.looks_pure false
    · refine Host.Looks.bind ?_ fun _ => Host.looks_pure _
      exact (Host.looks_look _).bind fun _ => Host.looks_pure _

theorem stopsWith_of_serves {B : List Order → Prop} {C : Command → Prop} {a : Act σ α}
    (ha : p.Serves B C a) : a.StopsWith (p.UnlockHalts u) := by
  intro s t e h
  obtain ⟨es, hs⟩ := ha s
  rw [h] at hs
  exact .halts (hs.halts e rfl)

theorem stopsWith_stageWork (stage : UnlockStage) :
    (p.stageWork u stage).StopsWith (p.UnlockHalts u) := by
  have hcancelled (t : Session σ) : p.UnlockHalts u t (.failed .cancelled) := .halts .calledOff
  unfold stageWork
  cases p.meeting u stage with
  | some m =>
    obtain ⟨kind, r⟩ := m
    refine (p.stopsWith_of_serves u (serves_interact (B := noOrders) fun _ hc => hc)).bind ?_
    intro outcome
    cases outcome with
    | succeeded => exact Act.stopsWith_pure ()
    | timedOut => exact Act.stopsWith_fail fun _ => .failed _ _
    | navigationFailed => exact Act.stopsWith_fail fun _ => .failed _ _
    | cancelled => exact Act.stopsWith_fail hcancelled
  | none =>
    refine (p.stopsWith_of_serves u (serves_switchAndEquip (B := noOrders) fun _ hc => hc)).bind ?_
    intro switched
    cases switched with
    | true => exact Act.stopsWith_pure ()
    | false => exact Act.stopsWith_fail fun _ => .failed _ _

theorem stopsWith_pause (stage : UnlockStage) : (p.pause stage).StopsWith (p.UnlockHalts u) := by
  have hrest := Act.stopsWith_rest (P := p.UnlockHalts u) (fun _ => .halts .calledOff)
    p.timing.settleDelay.toNat
  cases stage with
  | prerequisite => exact hrest
  | acquire => exact Act.stopsWith_pure ()
  | deliver => exact hrest
  | switch => exact Act.stopsWith_pure ()

theorem stopsWith_carryOutAll (stages : List UnlockStage) :
    (p.carryOutAll u stages).StopsWith (p.UnlockHalts u) := by
  induction stages with
  | nil => exact Act.stopsWith_pure _
  | cons stage stages ih =>
    refine Act.StopsWith.bind ?_ fun _ => ih.bind fun _ => Act.stopsWith_pure _
    refine (p.looks_isCalledFor u stage).stopsWith.bind ?_
    intro called
    split
    · exact Act.stopsWith_pure _
    · refine (Act.stopsWith_modify _).bind fun _ => (p.stopsWith_stageWork u stage).bind fun _ => ?_
      exact (p.stopsWith_pause u stage).bind fun _ => Act.stopsWith_pure _

theorem stopsWith_unlock : (p.unlock u).StopsWith (p.UnlockHalts u) := by
  rw [unlock_eq]
  refine (p.stopsWith_carryOutAll u _).bind fun stages => (Host.looks_look _).stopsWith.bind ?_
  intro level
  split
  · refine (Host.looks_look _).stopsWith.bind ?_
    intro completed
    split
    · exact (Act.stopsWith_fail fun _ => .failed _ _).bind fun _ => Act.stopsWith_pure _
    · exact Act.stopsWith_pure _
  · exact Act.stopsWith_pure _

/-- The report of an unlock is about its class. -/
theorem job_of_unlock {s t : Session σ} {report : UnlockReport}
    (h : (p.unlock u).go s = (.ok report, t)) : report.job = u.job := by
  rw [unlock_eq] at h
  obtain ⟨stages, v, -, h⟩ := Act.go_bind_eq_ok.1 h
  obtain ⟨result, t', es, hgo, -, -, hr⟩ := p.go_verify u stages v
  rw [h] at hgo
  cases hgo
  exact (hr report rfl).1

end Setup
end Progression
