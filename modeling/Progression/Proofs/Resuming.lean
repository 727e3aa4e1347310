import Progression.Proofs.Unfolding

/-!
Calls of an unlock, one after the other. An unlock keeps nothing between two calls; each call takes
its place from the journal, so wherever the call before it was broken off, what the journal says to
be done is not begun again. A call begins a stage only where it is called for
(`exists_comesTo_of_unlock`), and by a journal that only moves forward, a stage that was done
once is not called for later (`not_isCalledFor_prerequisite` and those behind it). There is one
exception. Two looks call for the acquisition, and an objective that is held at the first and
completed at the second is called for by both (`completed_between_of_isCalledFor_acquire`). It is
not acquired again for all that: the call would have to be answered that an objective is held which
has been completed, so one call at most completes the acquisition (`not_completes_acquire`).
-/

namespace Progression

variable {σ : Type}

/-! ### The journal -/

/-- From an instant on, the journal only moves forward about an objective: what is held is held
until it is completed, and what is completed stays so and is not held. -/
structure Host.Forward (h : Host σ) (outside : Instant σ → Instant σ → Prop) (i : Instant σ)
    (id : ObjectiveId) : Prop where
  held : ∀ a b, h.Unfolds outside i a → h.Moves outside a b →
    (h.tells a (.held id) : Bool) = true →
    (h.tells b (.held id) : Bool) = true ∨ (h.tells b (.completed id) : Bool) = true
  completed : ∀ a b, h.Unfolds outside i a → h.Moves outside a b →
    (h.tells a (.completed id) : Bool) = true → (h.tells b (.completed id) : Bool) = true
  apart : ∀ a, h.Unfolds outside i a → (h.tells a (.completed id) : Bool) = true →
    (h.tells a (.held id) : Bool) = false

/-- The journal is not moved by a look: an objective that is held is held when it has been looked
whether it is completed. -/
def Host.Still (h : Host σ) (id : ObjectiveId) : Prop := ∀ a, (h.tells a (.held id) : Bool) = true →
  (h.tells ⟨a.time, (h.ask (.completed id) a.time a.world).state⟩ (.held id) : Bool) = true

namespace Host.Forward

variable {h : Host σ} {outside : Instant σ → Instant σ → Prop} {i a b : Instant σ}
  {id : ObjectiveId}

theorem completed_of_unfolds (hf : h.Forward outside i id) (ha : h.Unfolds outside i a)
    (hab : h.Unfolds outside a b) (hc : (h.tells a (.completed id) : Bool) = true) :
    (h.tells b (.completed id) : Bool) = true := by
  induction hab with
  | refl => exact hc
  | tail hab hbc ih => exact hf.completed _ _ (ha.trans hab) hbc ih

/-- What was held or completed is held or completed. -/
theorem held_or_completed_of_unfolds (hf : h.Forward outside i id) (ha : h.Unfolds outside i a)
    (hab : h.Unfolds outside a b)
    (hc : (h.tells a (.held id) : Bool) = true ∨ (h.tells a (.completed id) : Bool) = true) :
    (h.tells b (.held id) : Bool) = true ∨ (h.tells b (.completed id) : Bool) = true := by
  induction hab with
  | refl => exact hc
  | tail hab hbc ih =>
    rcases ih with ih | ih
    · exact hf.held _ _ (ha.trans hab) hbc ih
    · exact .inr (hf.completed _ _ (ha.trans hab) hbc ih)

end Host.Forward

theorem Host.Looked.unfolds {h : Host σ} {outside : Instant σ → Instant σ → Prop} {q : Query}
    {x : q.Answer} {s t : Session σ} (hl : h.Looked q x s t) :
    h.Unfolds outside s.instant t.instant := by
  refine .single ?_
  unfold Session.instant
  rw [hl.now, hl.world]
  exact .asked s.instant q

namespace Setup

/-! ### Where stages are begun -/

section Begun

variable (p : Setup σ) (u : Unlock) (outside : Instant σ → Instant σ → Prop) {stage : UnlockStage}
  {s t : Session σ} {es : List Entry}

/-- A session that a call comes by, and the looks there that call for a stage: right behind them the
stage is begun. -/
structure ComesTo (stage : UnlockStage) (s : Session σ) (es : List Entry) (v w : Session σ) :
    Prop where
  unfolds : p.host.Unfolds outside s.instant v.instant
  called : (p.isCalledFor u stage).go v = (.ok true, w)
  entries : ∃ before looks after, s.Adds v before ∧ v.Adds w looks ∧
    es = before ++ (looks ++ ⟨w.now, .began stage⟩ :: after)

variable {p u outside} in
/-- What a call comes to when it goes on, and is done later. -/
theorem ComesTo.of_later {r v w : Session σ} {fs : List Entry}
    (hrs : p.host.Unfolds outside r.instant s.instant) (ha : r.Adds s fs)
    (h : p.ComesTo u outside stage s es v w) : p.ComesTo u outside stage r (fs ++ es) v w where
  unfolds := hrs.trans h.unfolds
  called := h.called
  entries := by
    obtain ⟨before, looks, after, hbefore, hlooks, rfl⟩ := h.entries
    exact ⟨fs ++ before, looks, after, ha.trans hbefore, hlooks, (List.append_assoc _ _ _).symm⟩

variable {p u outside} in
theorem ComesTo.append {v w : Session σ} (h : p.ComesTo u outside stage s es v w)
    (fs : List Entry) : p.ComesTo u outside stage s (es ++ fs) v w where
  unfolds := h.unfolds
  called := h.called
  entries := by
    obtain ⟨before, looks, after, hbefore, hlooks, rfl⟩ := h.entries
    exact ⟨before, looks, after ++ fs, hbefore, hlooks, by simp⟩

/-- What is done behind the beginning of a stage. -/
theorem adds_of_begun (stage : UnlockStage) (s : Session σ) :
    ∃ es, s.Adds ((do p.stageWork u stage; p.pause stage; return [stage] : Act σ _).go s).2 es := by
  obtain ⟨es, ha, -⟩ := p.adds_of_stageWork u stage s
  rcases hwork : (p.stageWork u stage).go s with ⟨e | _, v⟩ <;> rw [hwork] at ha
  · rw [Act.go_bind_error hwork]
    exact ⟨es, ha⟩
  · obtain ⟨result, t, hpause, ha', -⟩ := p.go_pause stage v
    rw [Act.go_bind_ok hwork, Act.go_bind, hpause]
    refine ⟨es ++ [], ha.trans ?_⟩
    rcases result with e | _ <;> exact ha'

/-- A stage that is begun is the one to be carried out, and it is called for. -/
theorem comesTo_of_carryOut {stage' : UnlockStage} {result : Except Halt (List UnlockStage)}
    (hgo : (p.carryOut u stage').go s = (result, t)) (ha : s.Adds t es) (hm : stage ∈ begun es) :
    ∃ w, p.ComesTo u outside stage s es s w := by
  obtain ⟨result', t', runs, es', hgo', hp, -⟩ := p.passes_of_carryOut u stage' s
  rw [hgo] at hgo'
  cases hgo'
  cases ha.unique hp.adds
  obtain rfl : stage = stage' := by
    rw [hp.begins] at hm
    exact List.mem_singleton.1 (hp.order.subset hm)
  obtain ⟨⟨looks, hl, hlooks⟩, -⟩ := p.gives_isCalledFor (C := noCommand) u stage s
  unfold carryOut at hgo
  rcases hr : (p.isCalledFor u stage).go s with ⟨e | called, w⟩ <;> rw [hr] at hl
  · rw [Act.go_bind_error hr] at hgo
    cases hgo
    rw [ha.unique hl, begun_eq_nil hlooks] at hm
    cases hm
  · cases called with
    | true =>
      rw [Act.go_bind_ok hr, if_neg (by decide), Act.go_bind_ok (Act.go_note w _)] at hgo
      obtain ⟨after, hafter⟩ := p.adds_of_begun u stage (w.note (.began stage))
      rw [hgo] at hafter
      refine ⟨w, .refl, hr, [], looks, after, .refl s, hl, ?_⟩
      exact ha.unique (hl.trans (hafter.cons rfl))
    | false =>
      rw [Act.go_bind_ok hr] at hgo
      cases hgo
      rw [ha.unique hl, begun_eq_nil hlooks] at hm
      cases hm

theorem exists_comesTo_of_carryOutAll {stages : List UnlockStage}
    {result : Except Halt (List UnlockStage)}
    (hgo : (p.carryOutAll u stages).go s = (result, t)) (ha : s.Adds t es) (hm : stage ∈ begun es) :
    ∃ v w, p.ComesTo u outside stage s es v w := by
  induction stages generalizing s es result with
  | nil =>
    cases hgo
    rw [ha.unique (.refl _)] at hm
    cases hm
  | cons stage' stages ih =>
    unfold carryOutAll at hgo
    obtain ⟨first, v, runs, fs, hfirst, hp, -⟩ := p.passes_of_carryOut u stage' s
    have hunfolds := (p.along_carryOut (p.host.carries_unfolds outside) u stage').of_go hfirst
    cases first with
    | error e =>
      rw [Act.go_bind_error hfirst] at hgo
      cases hgo
      cases ha.unique hp.adds
      exact ⟨s, p.comesTo_of_carryOut u outside hfirst hp.adds hm⟩
    | ok first =>
      rw [Act.go_bind_ok hfirst] at hgo
      obtain ⟨others, w, runs', gs, hothers, hp', -⟩ := p.passes_of_carryOutAll u stages v
      have ht : w = t := by
        cases others with
        | error e => rw [Act.go_bind_error hothers] at hgo; cases hgo; rfl
        | ok others => rw [Act.go_bind_ok hothers] at hgo; cases hgo; rfl
      subst ht
      cases ha.unique (hp.adds.trans hp'.adds)
      rw [begun_append, List.mem_append] at hm
      rcases hm with hm | hm
      · obtain ⟨x, hx⟩ := p.comesTo_of_carryOut u outside hfirst hp.adds hm
        exact ⟨s, x, hx.append gs⟩
      · obtain ⟨x, y, hxy⟩ := ih hothers hp'.adds hm
        exact ⟨x, y, hxy.of_later hunfolds hp.adds⟩

/-- A call begins a stage only where it comes by a session in which the stage is called for. -/
theorem exists_comesTo_of_unlock {result : Except Halt UnlockReport}
    (hgo : (p.unlock u).go s = (result, t)) (ha : s.Adds t es) (hm : stage ∈ begun es) :
    ∃ v w, p.ComesTo u outside stage s es v w := by
  rw [unlock_eq] at hgo
  obtain ⟨stages, v, runs, fs, hstages, hp, -⟩ := p.passes_of_carryOutAll u UnlockStage.all s
  cases stages with
  | error e =>
    rw [Act.go_bind_error hstages] at hgo
    cases hgo
    cases ha.unique hp.adds
    exact p.exists_comesTo_of_carryOutAll u outside hstages hp.adds hm
  | ok stages =>
    rw [Act.go_bind_ok hstages] at hgo
    obtain ⟨result', t', gs, hgo', hg, hlooks, -⟩ := p.go_verify u stages v
    rw [hgo] at hgo'
    cases hgo'
    cases ha.unique (hp.adds.trans hg)
    rw [begun_append, begun_eq_nil hlooks, List.append_nil] at hm
    obtain ⟨x, y, hxy⟩ := p.exists_comesTo_of_carryOutAll u outside hstages hp.adds hm
    exact ⟨x, y, hxy.append gs⟩

end Begun

/-! ### Where stages are not called for -/

section Guards

variable {p : Setup σ} {u : Unlock} {outside : Instant σ → Instant σ → Prop} {i a : Instant σ}
  {s t : Session σ}

theorem not_isCalledFor_prerequisite (hf : p.host.Forward outside i u.prerequisite)
    (ha : p.host.Unfolds outside i a) (has : p.host.Unfolds outside a s.instant)
    (hc : (p.host.tells a (.completed u.prerequisite) : Bool) = true) :
    (p.isCalledFor u .prerequisite).go s ≠ (.ok true, t) := by
  intro h
  rw [isCalledFor_prerequisite] at h
  split at h
  · cases h
  · obtain ⟨done, t', ht, h⟩ := Act.go_bind_eq_ok.1 h
    have hdone : (p.host.sees s (.completed u.prerequisite) : Bool) = true :=
      hf.completed_of_unfolds ha has hc
    rw [(Host.looked_of_look ht).sees] at hdone
    subst hdone
    cases h

theorem not_isCalledFor_acquire (hf : p.host.Forward outside i u.objective)
    (ha : p.host.Unfolds outside i a) (has : p.host.Unfolds outside a s.instant)
    (hc : (p.host.tells a (.completed u.objective) : Bool) = true) :
    (p.isCalledFor u .acquire).go s ≠ (.ok true, t) := by
  intro h
  obtain ⟨done, t', ht, h⟩ := Act.go_bind_eq_ok.1 h
  have hdone : (p.host.sees s (.completed u.objective) : Bool) = true :=
    hf.completed_of_unfolds ha has hc
  rw [(Host.looked_of_look ht).sees] at hdone
  subst hdone
  cases h

/-- Where what was held or completed is to be acquired, it is completed between the two looks of the
guard: it is held when it is looked whether it is completed, and completed when it is looked whether
it is held. -/
theorem completed_between_of_isCalledFor_acquire (hf : p.host.Forward outside i u.objective)
    (ha : p.host.Unfolds outside i a) (has : p.host.Unfolds outside a s.instant)
    (hc : (p.host.tells a (.held u.objective) : Bool) = true ∨
      (p.host.tells a (.completed u.objective) : Bool) = true)
    (h : (p.isCalledFor u .acquire).go s = (.ok true, t)) :
    ∃ v, p.host.Looked (.completed u.objective) false s v ∧
      p.host.Looked (.held u.objective) false v t ∧
      (p.host.sees s (.held u.objective) : Bool) = true ∧
      (p.host.sees v (.completed u.objective) : Bool) = true := by
  cases p.calledFor_of_isCalledFor u h with
  | @acquire _ v _ hlook hlook' =>
    have hs := ha.trans has
    have hstep : p.host.Unfolds outside s.instant v.instant := hlook.unfolds
    have hheld := (hf.held_or_completed_of_unfolds ha has hc).resolve_right
      fun hcompleted => Bool.noConfusion (hcompleted.symm.trans hlook.sees)
    have hcompleted := (hf.held_or_completed_of_unfolds hs hstep (.inl hheld)).resolve_left
      fun hstill => Bool.noConfusion (hstill.symm.trans hlook'.sees)
    exact ⟨v, hlook, hlook', hheld, hcompleted⟩

theorem not_isCalledFor_deliver (hf : p.host.Forward outside i u.objective)
    (ha : p.host.Unfolds outside i a) (has : p.host.Unfolds outside a s.instant)
    (hc : (p.host.tells a (.completed u.objective) : Bool) = true) :
    (p.isCalledFor u .deliver).go s ≠ (.ok true, t) := by
  intro h
  have hfree := hf.apart s.instant (ha.trans has) (hf.completed_of_unfolds ha has hc)
  rw [p.host.tells_instant, (Host.looked_of_look h).sees] at hfree
  cases hfree

end Guards

/-! ### Stages that are completed -/

variable (p : Setup σ) (u : Unlock) (outside : Instant σ → Instant σ → Prop)

/-- A call that is made in a session completes a stage: it comes to the stage, which is called for,
and the work of the stage succeeds. It leaves this session. -/
def Completes (stage : UnlockStage) (s t : Session σ) : Prop :=
  ∃ front back done v w, UnlockStage.all = front ++ stage :: back ∧
    (p.carryOutAll u front).go s = (.ok done, v) ∧
    (p.isCalledFor u stage).go v = (.ok true, w) ∧
    (p.stageWork u stage).go (w.note (.began stage)) = (.ok (), t)

theorem carryOutAll_append (front back : List UnlockStage) : p.carryOutAll u (front ++ back) = do
    let first ← p.carryOutAll u front
    let others ← p.carryOutAll u back
    return first ++ others := by
  induction front with
  | nil => simp [carryOutAll]
  | cons stage front ih =>
    simp only [List.cons_append, carryOutAll, ih, bind_assoc, pure_bind, List.append_assoc]

variable {p u} {stage : UnlockStage} {s t : Session σ}

/-- A call goes on from where it completes a stage. -/
theorem Completes.unfolds (h : p.Completes u stage s t) :
    p.host.Unfolds outside t.instant ((p.unlock u).go s).2.instant := by
  obtain ⟨front, back, done, v, w, hall, hfront, hcalled, hwork⟩ := h
  have hR := p.host.carries_unfolds outside
  rw [unlock_eq, hall, carryOutAll_append]
  -- Whatever is done behind the work of the stage goes on from the session it leaves.
  refine Act.along_bind_from hR ?_ fun _ => p.along_verify hR u _
  rw [Act.go_bind_ok hfront]
  refine Act.along_bind_from hR ?_ fun _ => Act.along_pure hR _
  refine Act.along_bind_from hR ?_ fun _ =>
    Act.Along.bind hR (p.along_carryOutAll hR u back) fun _ => Act.along_pure hR _
  unfold carryOut
  rw [Act.go_bind_ok hcalled, if_neg (by decide), Act.go_bind_ok (Act.go_note w _),
    Act.go_bind_ok hwork]
  exact Act.Along.bind hR (p.along_pause hR stage) (fun _ => Act.along_pure hR _) t

/-- A call that completes the acquisition comes by an instant at which the objective is held, and
that is after the acquisition was called for. -/
theorem Completes.exists_held (h : p.Completes u .acquire s t) : ∃ v w a,
    p.host.Unfolds outside s.instant v.instant ∧ (p.isCalledFor u .acquire).go v = (.ok true, w) ∧
      p.host.Unfolds outside w.instant a ∧ p.host.Unfolds outside a t.instant ∧
      (p.host.tells a (.held u.objective) : Bool) = true := by
  obtain ⟨front, back, done, v, w, -, hfront, hcalled, hwork⟩ := h
  have hv := (p.along_carryOutAll (p.host.carries_unfolds outside) u front).of_go hfront
  have hanswers := (p.along_stageWork (p.host.carries_answers outside) u .acquire).of_go hwork
  obtain ⟨outcome, x, hx, hend⟩ := Act.go_bind_eq_ok.1 hwork
  obtain ⟨result, x', ticks, hgo, -, hcourse⟩ := p.course_of_interact .acquire
    (p.request u.pickupActor u.objective u.zone u.pickupPlace) (w.note (.began .acquire))
  have hgo' : (p.interact .acquire (p.request u.pickupActor u.objective u.zone u.pickupPlace)).go
      (w.note (.began .acquire)) = (.ok outcome, x) := hx
  rw [hgo'] at hgo
  cases hgo
  cases outcome with
  | succeeded =>
    cases hend
    cases hcourse.closing with
    | reached hl =>
      -- The last look of the interaction was answered that the objective is held.
      obtain ⟨a, hwa, hat, ha⟩ := hanswers.exists_tells hl (by simp)
      exact ⟨v, w, a, hv, hcalled, hwa, hat, ha⟩
    | talkedOut hk => cases hk
  | timedOut => cases hend
  | navigationFailed => cases hend
  | cancelled => cases hend

end Setup

/-! ### Calls one after the other -/

/-- A call of an unlock: the session it is made in, what comes of it, what it adds to the history,
and the session it leaves. -/
structure UnlockCall (σ : Type) where
  start : Session σ
  result : Except Halt UnlockReport
  entries : List Entry
  finish : Session σ

namespace Setup

variable (p : Setup σ) (u : Unlock) (outside : Instant σ → Instant σ → Prop)

/-- Calls one after the other, from an instant on. Each one may be made in any session, with any
signal and any alarms, and whatever else happens to the game may happen between two of them. -/
inductive Calls : Instant σ → List (UnlockCall σ) → Prop
  | nil {i : Instant σ} : Calls i []
  | cons {i : Instant σ} {c : UnlockCall σ} {cs : List (UnlockCall σ)} :
    p.host.Unfolds outside i c.start.instant → (p.unlock u).go c.start = (c.result, c.finish) →
    c.start.Adds c.finish c.entries → Calls c.finish.instant cs → Calls i (c :: cs)

/-- The journal outruns the guard of a call: the objective is completed between the two looks right
before the acquisition is begun. It is held when it is looked whether it is completed, and completed
when it is looked whether it is held. -/
def Outruns (c : UnlockCall σ) : Prop :=
  ∃ v w x before after, c.start.Adds v before ∧
    c.entries = before ++ (⟨v.now, .asked (.completed u.objective) false⟩ ::
      ⟨w.now, .asked (.held u.objective) false⟩ :: ⟨x.now, .began .acquire⟩ :: after) ∧
    p.host.Unfolds outside c.start.instant v.instant ∧
    p.host.Looked (.completed u.objective) false v w ∧
    p.host.Looked (.held u.objective) false w x ∧
    (p.host.sees v (.held u.objective) : Bool) = true ∧
    (p.host.sees w (.completed u.objective) : Bool) = true

/-- What a call does not begin again, in view of an instant before it. -/
structure Resumes (a : Instant σ) (c : UnlockCall σ) : Prop where
  prerequisite : (p.host.tells a (.completed u.prerequisite) : Bool) = true →
    .prerequisite ∉ begun c.entries
  completed : (p.host.tells a (.completed u.objective) : Bool) = true →
    .acquire ∉ begun c.entries ∧ .deliver ∉ begun c.entries
  /-- What is held is acquired again only if the journal outruns the guard. -/
  held : (p.host.tells a (.held u.objective) : Bool) = true → .acquire ∈ begun c.entries →
    p.Outruns u outside c
  /-- In a journal that is not moved by looks it never is. -/
  still : p.host.Still u.objective → (p.host.tells a (.held u.objective) : Bool) = true →
    .acquire ∉ begun c.entries

variable {p u outside} {i : Instant σ} {calls : List (UnlockCall σ)}

theorem Calls.of_mem (h : p.Calls u outside i calls) {c : UnlockCall σ} (hc : c ∈ calls) :
    p.host.Unfolds outside i c.start.instant ∧ (p.unlock u).go c.start = (c.result, c.finish) ∧
      c.start.Adds c.finish c.entries := by
  induction h with
  | nil => cases hc
  | @cons i d cs hi hgo ha _ ih =>
    obtain rfl | hc := List.mem_cons.1 hc
    · exact ⟨hi, hgo, ha⟩
    · have hunfolds := p.along_unlock (p.host.carries_unfolds outside) u d.start
      rw [hgo] at hunfolds
      exact ⟨(hi.trans hunfolds).trans (ih hc).1, (ih hc).2⟩

/-- A call is made after those before it have ended. -/
theorem Calls.pairwise (h : p.Calls u outside i calls) :
    calls.Pairwise fun c d => p.host.Unfolds outside c.finish.instant d.start.instant := by
  induction h with
  | nil => exact .nil
  | cons _ _ _ hcs ih => exact .cons (fun d hd => (hcs.of_mem hd).1) ih

theorem resumes_of_unfolds (hpre : p.host.Forward outside i u.prerequisite)
    (hobj : p.host.Forward outside i u.objective) {a : Instant σ} {c : UnlockCall σ}
    (ha : p.host.Unfolds outside i a) (hac : p.host.Unfolds outside a c.start.instant)
    (hgo : (p.unlock u).go c.start = (c.result, c.finish))
    (hadds : c.start.Adds c.finish c.entries) : p.Resumes u outside a c := by
  have hcalled {stage : UnlockStage} (hm : stage ∈ begun c.entries) :=
    p.exists_comesTo_of_unlock u outside hgo hadds hm
  have hheld (hh : (p.host.tells a (.held u.objective) : Bool) = true)
      (hm : .acquire ∈ begun c.entries) : p.Outruns u outside c := by
    obtain ⟨v, x, hcomes⟩ := hcalled hm
    obtain ⟨w, hlook, hlook', hsees⟩ := completed_between_of_isCalledFor_acquire hobj ha
      (hac.trans hcomes.unfolds) (.inl hh) hcomes.called
    obtain ⟨before, looks, after, hbefore, hlooks, hentries⟩ := hcomes.entries
    cases hlooks.unique (hlook.adds.trans hlook'.adds)
    exact ⟨v, w, x, before, after, hbefore, hentries, hcomes.unfolds, hlook, hlook', hsees⟩
  refine ⟨?_, fun hc => ⟨?_, ?_⟩, hheld, ?_⟩
  · intro hc hm
    obtain ⟨v, w, hcomes⟩ := hcalled hm
    exact not_isCalledFor_prerequisite hpre ha (hac.trans hcomes.unfolds) hc hcomes.called
  · intro hm
    obtain ⟨v, w, hcomes⟩ := hcalled hm
    exact not_isCalledFor_acquire hobj ha (hac.trans hcomes.unfolds) hc hcomes.called
  · intro hm
    obtain ⟨v, w, hcomes⟩ := hcalled hm
    exact not_isCalledFor_deliver hobj ha (hac.trans hcomes.unfolds) hc hcomes.called
  · intro hstill hh hm
    obtain ⟨v, w, x, -, -, -, -, -, hlook, hlook', hwas, -⟩ := hheld hh hm
    have hlost := hlook'.sees
    rw [← p.host.tells_instant, Session.instant, hlook.now, hlook.world] at hlost
    exact Bool.noConfusion ((hstill v.instant hwas).symm.trans hlost)

/-- Of two calls, the later does not complete the acquisition if the earlier did. -/
theorem not_completes_acquire (hobj : p.host.Forward outside i u.objective) {c d : UnlockCall σ}
    (hc : p.host.Unfolds outside i c.start.instant)
    (hgo : (p.unlock u).go c.start = (c.result, c.finish))
    (hcd : p.host.Unfolds outside c.finish.instant d.start.instant)
    (ht : p.Completes u .acquire c.start t) : ¬ ∃ t', p.Completes u .acquire d.start t' := by
  rintro ⟨t', ht'⟩
  obtain ⟨v, w, a, hv, hcalled, hwa, hat, ha⟩ := ht.exists_held outside
  obtain ⟨v', w', b, hv', hcalled', hwb, -, hb⟩ := ht'.exists_held outside
  have hguard := p.along_isCalledFor (p.host.carries_unfolds outside) u .acquire
  have hia : p.host.Unfolds outside i a := ((hc.trans hv).trans (hguard.of_go hcalled)).trans hwa
  have hend := ht.unfolds outside
  rw [hgo] at hend
  have hav : p.host.Unfolds outside a v'.instant := ((hat.trans hend).trans hcd).trans hv'
  -- If the second call is to acquire what was held, this has been completed by then, so it is not
  -- held again.
  obtain ⟨x, hlook, hlook', -, hcompleted⟩ :=
    completed_between_of_isCalledFor_acquire hobj hia hav (.inl ha) hcalled'
  have hix := (hia.trans hav).trans hlook.unfolds
  have hxb := hlook'.unfolds.trans hwb
  have hfree := hobj.apart b (hix.trans hxb) (hobj.completed_of_unfolds hix hxb hcompleted)
  rw [hb] at hfree
  cases hfree

/-- **Unlocking resumes**: whatever calls were made before, and wherever they were broken off, a
call begins nothing again that the journal said to be done at any instant before it, in the course
of another call or between two of them; only an objective that is completed between the two looks
of the call is begun to be acquired although it was held. It is acquired by one call at most. -/
theorem unlock_resumes (hpre : p.host.Forward outside i u.prerequisite)
    (hobj : p.host.Forward outside i u.objective) (hcalls : p.Calls u outside i calls) :
    (∀ c ∈ calls, ∀ a, p.host.Unfolds outside i a → p.host.Unfolds outside a c.start.instant →
      p.Resumes u outside a c) ∧
    (calls.Pairwise fun c d => ∀ a, p.host.Unfolds outside c.start.instant a →
      p.host.Unfolds outside a c.finish.instant → p.Resumes u outside a d) ∧
    calls.Pairwise fun c d =>
      ¬ ((∃ t, p.Completes u .acquire c.start t) ∧ ∃ t, p.Completes u .acquire d.start t) := by
  have hresumes : ∀ c ∈ calls, ∀ a, p.host.Unfolds outside i a →
      p.host.Unfolds outside a c.start.instant → p.Resumes u outside a c := by
    intro c hc a ha hac
    obtain ⟨-, hgo, hadds⟩ := hcalls.of_mem hc
    exact resumes_of_unfolds hpre hobj ha hac hgo hadds
  refine ⟨hresumes, ?_, ?_⟩
  · refine hcalls.pairwise.imp_of_mem ?_
    intro c d hc hd hcd a hca hac
    exact hresumes d hd a ((hcalls.of_mem hc).1.trans hca) (hac.trans hcd)
  · refine hcalls.pairwise.imp_of_mem ?_
    rintro c d hc - hcd ⟨⟨t, ht⟩, hd⟩
    obtain ⟨hi, hgo, -⟩ := hcalls.of_mem hc
    exact not_completes_acquire hobj hi hgo hcd ht hd

end Setup

/-! ### Calls in new sessions -/

/-- A new session where another one stands. -/
def Session.anew (s : Session σ) (alarms : List Alarm) : Session σ :=
  { world := s.world, time := { now := s.now, alarms } }

/-- The call that is made in a new session. -/
def Setup.callAnew (p : Setup σ) (u : Unlock) (s : Session σ) (alarms : List Alarm) :
    UnlockCall σ where
  start := s.anew alarms
  result := ((p.unlock u).go (s.anew alarms)).1
  entries := ((p.unlock u).go (s.anew alarms)).2.history.reverse
  finish := ((p.unlock u).go (s.anew alarms)).2

theorem Setup.calls_callAnew {p : Setup σ} {u : Unlock}
    {outside : Instant σ → Instant σ → Prop} {s : Session σ} {alarms : List Alarm}
    {cs : List (UnlockCall σ)}
    (h : p.Calls u outside (p.callAnew u s alarms).finish.instant cs) :
    p.Calls u outside s.instant (p.callAnew u s alarms :: cs) :=
  .cons .refl rfl (by simp [Session.Adds, Session.anew, callAnew]) h

/-! ### A game that goes on between two looks -/

namespace Lapse

def answer (handedIn : Bool) : (q : Query) → q.Answer
  | .held id => id == 65 && !handedIn
  | .completed id => id == 65 && handedIn
  | .stage _ => 0
  | .count _ _ => 0
  | .level _ => 0
  | .activeJob => none
  | .isOpen _ => false
  | .actor _ => none

def after (handedIn : Bool) : Query → Bool
  | .completed _ => true
  | _ => handedIn

/-- A game with one errand, which is held, and which is handed in right after it was looked whether
it is completed. No journey succeeds. -/
def host : Host Bool where
  ask q _ handedIn := ⟨after handedIn q, answer handedIn q, false⟩
  start _ _ handedIn := ⟨handedIn, 0, false⟩
  finish _ _ handedIn := ⟨handedIn, false, false⟩

theorem tells_held {a : Instant Bool} {id : ObjectiveId} :
    (host.tells a (.held id) : Bool) = true ↔ id = 65 ∧ a.world = false := by
  show (id == 65 && !a.world) = true ↔ _
  simp

theorem tells_completed {a : Instant Bool} {id : ObjectiveId} :
    (host.tells a (.completed id) : Bool) = true ↔ id = 65 ∧ a.world = true := by
  show (id == 65 && a.world) = true ↔ _
  simp

theorem handedIn_of_moves {a b : Instant Bool} (h : host.Moves (fun _ _ => False) a b) :
    b.world = a.world ∨ b.world = true := by
  cases h with
  | asked q =>
    cases q with
    | completed => exact .inr rfl
    | _ => exact .inl rfl
  | begun => exact .inl rfl
  | finished => exact .inl rfl
  | waited => exact .inl rfl
  | moved h => exact h.elim

theorem forward_host (i : Instant Bool) (id : ObjectiveId) :
    host.Forward (fun _ _ => False) i id where
  held a b _ hab h := by
    obtain ⟨rfl, hno⟩ := tells_held.1 h
    rw [tells_held, tells_completed]
    obtain hsame | hdone := handedIn_of_moves hab
    · exact .inl ⟨rfl, hsame.trans hno⟩
    · exact .inr ⟨rfl, hdone⟩
  completed a b _ hab h := by
    obtain ⟨rfl, hdone⟩ := tells_completed.1 h
    rw [tells_completed]
    obtain hsame | hdone' := handedIn_of_moves hab
    · exact ⟨rfl, hsame.trans hdone⟩
    · exact ⟨rfl, hdone'⟩
  apart a _ h := by
    obtain ⟨rfl, hdone⟩ := tells_completed.1 h
    refine Bool.eq_false_iff.2 fun hheld => ?_
    exact Bool.noConfusion ((tells_held.1 hheld).2.symm.trans hdone)

end Lapse

/-- An objective is held before a call, the journal only moves forward, and the call begins to
acquire it. -/
theorem Setup.acquire_begun_of_held :
    let p : Setup Bool := { host := Lapse.host, timing := {}, rounds := 50 }
    let u : Unlock := {
      job := .miner, zone := 131, prerequisite := 0, objective := 65
      pickupActor := 10, pickupPlace := .origin, turnInActor := 11, turnInPlace := .origin }
    let start : Session Bool := { world := false }
    let call := p.callAnew u start []
    (∀ id, p.host.Forward (fun _ _ => False) start.instant id) ∧
      p.Calls u (fun _ _ => False) start.instant [call] ∧
      p.host.Unfolds (fun _ _ => False) start.instant call.start.instant ∧
      (p.host.tells start.instant (.held u.objective) : Bool) = true ∧
      .acquire ∈ begun call.entries := by
  intro p u start call
  exact ⟨Lapse.forward_host start.instant, calls_callAnew .nil, .refl, rfl, by decide +kernel⟩

/-! ### A game in which calls are broken off -/

/-- A game with one errand, which is picked up from an actor and handed in to another: how many of
the two have been addressed, and the active class. -/
structure Errand where
  addressed : Nat := 0
  job : Option Job := none
  deriving DecidableEq

namespace Errand

def answer (w : Errand) : (q : Query) → q.Answer
  | .held id => id == 65 && w.addressed == 1
  | .completed id => id == 64 || id == 65 && w.addressed == 2
  | .stage _ => 0
  | .count _ _ => 0
  | .level _ => if w.addressed = 2 then 1 else 0
  | .activeJob => w.job
  | .isOpen _ => false
  | .actor _ => some true

def after (w : Errand) : Command → Errand
  | .interact actor =>
    if actor = 10 ∧ w.addressed = 0 then { w with addressed := 1 }
    else if actor = 11 ∧ w.addressed = 1 then { w with addressed := 2 }
    else w
  | .changeJob j => { w with job := some j }
  | _ => w

def host : Host Errand where
  ask q _ w := ⟨w, w.answer q, false⟩
  start c _ w := ⟨w.after c, 0, false⟩
  finish _ _ w := ⟨w, true, false⟩

theorem still_host (id : ObjectiveId) : host.Still id := fun _ h => h

theorem addressed_after (w : Errand) (c : Command) :
    (w.after c).addressed = w.addressed ∨
      w.addressed = 0 ∧ (w.after c).addressed = 1 ∨
      w.addressed = 1 ∧ (w.after c).addressed = 2 := by
  cases c with
  | interact actor =>
    unfold after
    dsimp only
    split
    · next h => exact .inr (.inl ⟨h.2, rfl⟩)
    · split
      · next h => exact .inr (.inr ⟨h.2, rfl⟩)
      · exact .inl rfl
  | _ => exact .inl rfl

/-- What is done moves the errand on by a step at most. -/
theorem addressed_of_moves {a b : Instant Errand} (h : host.Moves (fun _ _ => False) a b) :
    b.world.addressed = a.world.addressed ∨
      a.world.addressed = 0 ∧ b.world.addressed = 1 ∨
      a.world.addressed = 1 ∧ b.world.addressed = 2 := by
  cases h with
  | asked => exact .inl rfl
  | begun => exact addressed_after _ _
  | finished => exact .inl rfl
  | waited => exact .inl rfl
  | moved h => exact h.elim

theorem tells_held {a : Instant Errand} {id : ObjectiveId} :
    (host.tells a (.held id) : Bool) = true ↔ id = 65 ∧ a.world.addressed = 1 := by
  show (id == 65 && a.world.addressed == 1) = true ↔ _
  simp

theorem tells_completed {a : Instant Errand} {id : ObjectiveId} :
    (host.tells a (.completed id) : Bool) = true ↔ id = 64 ∨ id = 65 ∧ a.world.addressed = 2 := by
  show (id == 64 || id == 65 && a.world.addressed == 2) = true ↔ _
  simp

theorem forward_host (i : Instant Errand) (id : ObjectiveId) :
    host.Forward (fun _ _ => False) i id where
  held a b _ hab h := by
    obtain ⟨rfl, hone⟩ := tells_held.1 h
    rw [tells_held, tells_completed]
    obtain hsame | ⟨hzero, -⟩ | ⟨-, htwo⟩ := addressed_of_moves hab
    · exact .inl ⟨rfl, hsame.trans hone⟩
    · omega
    · exact .inr (.inr ⟨rfl, htwo⟩)
  completed a b _ hab h := by
    rw [tells_completed] at h ⊢
    refine h.imp_right ?_
    rintro ⟨rfl, htwo⟩
    have hmove := addressed_of_moves hab
    exact ⟨rfl, by omega⟩
  apart a _ h := by
    rw [tells_completed] at h
    refine Bool.eq_false_iff.2 fun hheld => ?_
    obtain ⟨rfl, hone⟩ := tells_held.1 hheld
    obtain h | ⟨-, htwo⟩ := h
    · exact absurd h (by decide)
    · omega

end Errand

namespace Setup

/-- A call that is broken off while it delivers, one that is broken off after the delivery, and one
that comes to its end. -/
theorem unlock_resumes_errand :
    let p : Setup Errand := { host := Errand.host, timing := {}, rounds := 50 }
    let u : Unlock := {
      job := .miner, zone := 131, prerequisite := 64, objective := 65
      pickupActor := 10, pickupPlace := .origin, turnInActor := 11, turnInPlace := .origin }
    let start : Session Errand := { world := {} }
    let first := p.callAnew u start [⟨900, 0⟩]
    let second := p.callAnew u first.finish [⟨2000, 0⟩]
    let third := p.callAnew u second.finish []
    (∀ id, p.host.Still id) ∧ (∀ id, p.host.Forward (fun _ _ => False) start.instant id) ∧
      p.Calls u (fun _ _ => False) start.instant [first, second, third] ∧
      (begun first.entries = [.acquire, .deliver] ∧ begun second.entries = [.deliver] ∧
        begun third.entries = [.switch]) ∧
      p.Resumes u (fun _ _ => False) first.finish.instant second ∧
      p.Resumes u (fun _ _ => False) second.finish.instant third ∧
      ∀ t t', p.Completes u .acquire first.start t → ¬ p.Completes u .acquire third.start t' := by
  intro p u start first second third
  have hforward (id : ObjectiveId) := Errand.forward_host start.instant id
  have hcalls : p.Calls u (fun _ _ => False) start.instant [first, second, third] :=
    calls_callAnew (calls_callAnew (calls_callAnew .nil))
  obtain ⟨-, hresumes, honce⟩ := unlock_resumes (hforward _) (hforward _) hcalls
  have hfirst := p.along_unlock (p.host.carries_unfolds fun _ _ => False) u first.start
  have hsecond := p.along_unlock (p.host.carries_unfolds fun _ _ => False) u second.start
  rw [List.pairwise_cons, List.pairwise_cons] at hresumes
  have honce := List.pairwise_cons.1 honce
  refine ⟨Errand.still_host, hforward, hcalls, by decide +kernel, ?_, ?_, ?_⟩
  · exact hresumes.1 second (by simp) _ hfirst .refl
  · exact hresumes.2.1 third (by simp) _ hsecond .refl
  · exact fun t t' ht ht' => honce.1 third (by simp) ⟨⟨t, ht⟩, t', ht'⟩

end Setup
end Progression
