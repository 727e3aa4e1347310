import Progression.Proofs.Giving
import Progression.Proofs.Interaction.Outcome
import Progression.Proofs.Interaction.Timing

/-!
The commands of a change of class and of the gear put on after it. The class is asked for once, and
not at all if it is active; a confirmation is given only behind a look that found it asked for; and
the gear is put on last, behind a look that found the class active. `WaitTurn` lists what one round
of waiting can add, `Waits` strings rounds together, and `Changes` puts the request before them; what
is said of a whole change is proved of a round first.

A change comes to its end because of the clock only: a round that goes on was begun before the
deadline, and the rest behind it moves the clock on.
-/

namespace Progression

open Interaction (windowAsked)

variable {σ : Type}

namespace Setup

variable (p : Setup σ) (j : Job)

/-! ### Rounds of waiting -/

/-- What a round adds that does not find the class active. A confirmation that is asked for is
given. -/
inductive Idles (time : Nat) : List Entry → Prop
  | quiet {found : Option Job} : found ≠ some j →
    Idles time [⟨time, .asked .activeJob found⟩, windowAsked false time .selectYesNo]
  | answers {found : Option Job} {e : Entry} : found ≠ some j →
    e.Gives time (.choose .selectYesNo 0) →
    Idles time [⟨time, .asked .activeJob found⟩, windowAsked true time .selectYesNo, e]

/-- What a round of waiting adds, and whether that settles the change. -/
inductive WaitTurn (deadline : Option Nat) (time : Nat) : List Entry → Option Bool → Prop
  | active : WaitTurn deadline time [⟨time, .asked .activeJob (some j)⟩] (some true)
  | expired {es : List Entry} : Idles j time es → isPast time deadline →
    WaitTurn deadline time es (some false)
  | goesOn {es : List Entry} : Idles j time es → ¬ isPast time deadline →
    WaitTurn deadline time es none

/-- The class that a look finds active. -/
def activeJob? (s : Session σ) : Option Job := p.host.sees s .activeJob

/-- A look at the active class. -/
def seen (s : Session σ) : Session σ :=
  s.asked .activeJob (p.host.ask .activeJob s.now s.world)

theorem go_isActive (s : Session σ) : (p.isActive j).go s =
    (.ok (p.activeJob? s == some j), p.seen s) :=
  Act.go_bind_ok (p.host.go_look s .activeJob) _

theorem adds_seen (s : Session σ) :
    s.Adds (p.seen s) [⟨s.now, .asked .activeJob (p.activeJob? s)⟩] := .asked s _ _

@[simp] theorem now_seen (s : Session σ) : (p.seen s).now = s.now := s.now_asked _ _

/-- A look for a confirmation, and the confirmation if it is asked for. -/
theorem go_confirm (s : Session σ) : ∃ t es, p.confirm.go s = (.ok (), t) ∧ s.Adds t es ∧
    t.now = s.now ∧ (es = [windowAsked false s.now .selectYesNo] ∨
      ∃ e : Entry, e.Gives s.now (.choose .selectYesNo 0) ∧
        es = [windowAsked true s.now .selectYesNo, e]) := by
  unfold confirm
  rw [Act.go_bind_ok (p.host.go_look s (.isOpen .selectYesNo))]
  generalize p.host.ask (.isOpen .selectYesNo) s.now s.world = a
  have hasked := Session.Adds.asked s _ a
  have hnow := s.now_asked _ a
  obtain ⟨state, isOpen, raises⟩ := a
  cases isOpen with
  | false => exact ⟨_, _, rfl, hasked, hnow, .inl rfl⟩
  | true =>
    generalize s.asked (.isOpen .selectYesNo) ⟨state, true, raises⟩ = u at hasked hnow ⊢
    obtain ⟨e, hbegun, hgives⟩ := Session.Adds.begun u (.choose .selectYesNo 0)
      (p.host.start (.choose .selectYesNo 0) u.now u.world)
    refine ⟨_, _, p.host.go_issue u _, hasked.trans hbegun, by simpa using hnow, .inr ⟨e, ?_, rfl⟩⟩
    rwa [hnow] at hgives

theorem waitTurn_of_awaitRound (deadline : Option Nat) (s : Session σ) : ∃ settled t es,
    (p.awaitRound j deadline).go s = (.ok settled, t) ∧ s.Adds t es ∧ t.now = s.now ∧
      WaitTurn j deadline s.now es settled := by
  unfold awaitRound
  rw [Act.go_bind_ok (p.go_isActive j s)]
  have hseen := p.adds_seen s
  by_cases hactive : p.activeJob? s = some j
  · rw [hactive] at hseen ⊢
    rw [if_pos (by simp)]
    exact ⟨_, _, _, rfl, hseen, p.now_seen s, .active⟩
  · obtain ⟨t, es, hgo, hadds, hnow, hes⟩ := p.go_confirm (p.seen s)
    rw [now_seen] at hnow hes
    have hidles : Idles j s.now
        ([⟨s.now, .asked .activeJob (p.activeJob? s)⟩] ++ es) := by
      rcases hes with rfl | ⟨e, he, rfl⟩
      · exact .quiet hactive
      · exact .answers hactive he
    rw [if_neg (by simpa using hactive), Act.go_bind_ok hgo, Act.go_bind_ok (Act.go_now t), hnow]
    cases hp : isPast s.now deadline with
    | true => exact ⟨_, t, _, rfl, hseen.trans hadds, hnow, .expired hidles hp⟩
    | false => exact ⟨_, t, _, rfl, hseen.trans hadds, hnow, .goesOn hidles (by simp [hp])⟩

/-- What rounds add from a time on, and how they end. -/
inductive Waits (deadline : Option Nat) :
    Nat → List Entry → Except Halt Bool → Session σ → Prop
  | settled {time : Nat} {es : List Entry} {active : Bool} {t : Session σ} :
    WaitTurn j deadline time es (some active) → t.now = time → Waits deadline time es (.ok active) t
  | calledOff {time : Nat} {es : List Entry} {t : Session σ} :
    WaitTurn j deadline time es none → Waits deadline time es (.error (.failed .cancelled)) t
  | exhausted {time : Nat} {es : List Entry} {t : Session σ} :
    WaitTurn j deadline time es none → Waits deadline time es (.error .endless) t
  | goesOn {time time' : Nat} {es fs : List Entry} {result : Except Halt Bool} {t : Session σ} :
    WaitTurn j deadline time es none → time ≤ time' → Waits deadline time' fs result t →
    Waits deadline time (es ++ fs) result t

/-- The rest behind a round is over. -/
def ticked (u : Session σ) : Session σ :=
  u.moveTo (u.time.sleep u.signal p.timing.tick.toNat).2

variable {p j} in
theorem go_awaitJob_of_settled {deadline : Option Nat} {s u : Session σ} {active : Bool}
    (h : (p.awaitRound j deadline).go s = (.ok (some active), u)) (rounds : Nat) :
    (p.awaitJob j deadline rounds).go s = (.ok active, u) := by
  unfold awaitJob
  rw [Act.go_bind_ok h]
  rfl

variable {p j} in
/-- A round that does not settle the change is followed by a rest, and by the rounds that are left. -/
theorem go_awaitJob_of_none {deadline : Option Nat} {s u : Session σ}
    (h : (p.awaitRound j deadline).go s = (.ok none, u)) (rounds : Nat) :
    (p.awaitJob j deadline rounds).go s =
      if (u.time.sleep u.signal p.timing.tick.toNat).1 then
        match rounds with
        | 0 => (.error .endless, p.ticked u)
        | n + 1 => (p.awaitJob j deadline n).go (p.ticked u)
      else (.error (.failed .cancelled), p.ticked u) := by
  have hrest := Act.go_rest u p.timing.tick.toNat
  conv_lhs => unfold awaitJob
  rw [Act.go_bind_ok h]
  dsimp only
  split at hrest
  · next hslept =>
    rw [if_pos hslept, Act.go_bind_ok hrest]
    cases rounds <;> rfl
  · next hslept => rw [if_neg hslept, Act.go_bind_error hrest]; rfl

theorem waits_of_awaitJob (deadline : Option Nat) (rounds : Nat) (s : Session σ) :
    ∃ result t es, (p.awaitJob j deadline rounds).go s = (result, t) ∧ s.Adds t es ∧
      Waits j deadline s.now es result t := by
  obtain ⟨settled, u, es, hgo, hadds, hnow, hturn⟩ := p.waitTurn_of_awaitRound j deadline s
  cases settled with
  | some active =>
    exact ⟨_, u, es, go_awaitJob_of_settled hgo rounds, hadds, .settled hturn hnow⟩
  | none =>
    rw [go_awaitJob_of_none hgo]
    split
    · cases rounds with
      | zero => exact ⟨_, _, es, rfl, hadds, .exhausted hturn⟩
      | succ rounds =>
        obtain ⟨result, t, fs, hgo', hadds', hwaits⟩ :=
          waits_of_awaitJob deadline rounds (p.ticked u)
        have hle : s.now ≤ (p.ticked u).now := hnow.ge.trans (u.time.now_le_sleep _ _)
        exact ⟨result, t, es ++ fs, hgo', hadds.trans hadds', .goesOn hturn hle hwaits⟩
    · exact ⟨_, _, es, rfl, hadds, .calledOff hturn⟩

/-! ### What stands before a command -/

/-- An entry after another is a look, or a command that the look before it, at the same time, gives
a reason for. -/
inductive Warrants : Entry → Entry → Prop
  | look {x e : Entry} : e.event.command? = none → Warrants x e
  | request {time : Nat} {found : Option Job} {e : Entry} : found ≠ some j →
    e.Gives time (.changeJob j) → Warrants ⟨time, .asked .activeJob found⟩ e
  | answer {time : Nat} {e : Entry} : e.Gives time (.choose .selectYesNo 0) →
    Warrants (windowAsked true time .selectYesNo) e
  | gear {time : Nat} {e : Entry} : e.Gives time .equip →
    Warrants ⟨time, .asked .activeJob (some j)⟩ e

/-- Entries that begin with a look, and each command of which is warranted by the look before it. -/
structure Warranted (es : List Entry) : Prop where
  first : ∀ e ∈ es.head?, e.event.command? = none
  chain : es.IsChain (Warrants j)

variable {p j}

theorem warranted_nil : Warranted j [] := ⟨by simp, .nil⟩

theorem warranted_cons {x : Entry} {es : List Entry} (hx : x.event.command? = none)
    (h : (x :: es).IsChain (Warrants j)) : Warranted j (x :: es) := ⟨by simpa using hx, h⟩

theorem Warranted.append {es fs : List Entry} (h : Warranted j es) (h' : Warranted j fs) :
    Warranted j (es ++ fs) where
  first e he := by
    cases es with
    | nil => exact h'.first e he
    | cons x es => exact h.first e he
  chain := List.isChain_append.2 ⟨h.chain, h'.chain, fun _ _ y hy => .look (h'.first y hy)⟩

/-- Gear that is put on was put on behind a look that found the class active. -/
theorem Warranted.exists_asked {es : List Entry} (h : Warranted j es) (hgear : .equip ∈ given es) :
    ∃ time, ⟨time, .asked .activeJob (some j)⟩ ∈ es := by
  obtain ⟨e, he, hc⟩ := List.mem_filterMap.1 hgear
  obtain ⟨before, after, rfl⟩ := List.append_of_mem he
  rcases before.eq_nil_or_concat' with rfl | ⟨front, x, rfl⟩
  · rw [h.first e rfl] at hc
    cases hc
  · have hx : Warrants j x e := by
      have hchain := h.chain
      rw [List.append_assoc] at hchain
      exact (List.isChain_cons_cons.1 (List.isChain_append.1 hchain).2.1).1
    cases hx with
    | look hnone => rw [hnone] at hc; cases hc
    | request _ hgives => rw [hgives.2] at hc; cases hc
    | answer hgives => rw [hgives.2] at hc; cases hc
    | @gear time => exact ⟨time, by simp⟩

theorem Idles.warranted {time : Nat} {es : List Entry} (h : Idles j time es) : Warranted j es := by
  cases h with
  | quiet => exact warranted_cons rfl (.cons_cons (.look rfl) (.singleton _))
  | answers _ he =>
    exact warranted_cons rfl (.cons_cons (.look rfl) (.cons_cons (.answer he) (.singleton _)))

theorem WaitTurn.warranted {deadline : Option Nat} {time : Nat} {es : List Entry}
    {settled : Option Bool} (h : WaitTurn j deadline time es settled) : Warranted j es := by
  cases h with
  | active => exact warranted_cons rfl (.singleton _)
  | expired hi => exact hi.warranted
  | goesOn hi => exact hi.warranted

theorem Waits.warranted {deadline : Option Nat} {time : Nat} {es : List Entry}
    {result : Except Halt Bool} {t : Session σ} (h : Waits j deadline time es result t) :
    Warranted j es := by
  induction h with
  | settled h => exact h.warranted
  | calledOff h => exact h.warranted
  | exhausted h => exact h.warranted
  | goesOn h _ _ ih => exact h.warranted.append ih

/-! ### The commands of a change -/

theorem Idles.confirms {time : Nat} {es : List Entry} (h : Idles j time es) :
    ∀ c ∈ given es, c = .choose .selectYesNo 0 := by
  cases h with
  | quiet => simp [given_cons, windowAsked, Event.command?]
  | answers _ he =>
    rw [given_cons, given_cons, he.given_cons]
    simp [windowAsked, Event.command?]

theorem WaitTurn.confirms {deadline : Option Nat} {time : Nat} {es : List Entry}
    {settled : Option Bool} (h : WaitTurn j deadline time es settled) :
    ∀ c ∈ given es, c = .choose .selectYesNo 0 := by
  cases h with
  | active => simp [given_cons, Event.command?]
  | expired hi => exact hi.confirms
  | goesOn hi => exact hi.confirms

/-- While a class is waited for, confirmations are given and nothing else. -/
theorem Waits.confirms {deadline : Option Nat} {time : Nat} {es : List Entry}
    {result : Except Halt Bool} {t : Session σ} (h : Waits j deadline time es result t) :
    ∀ c ∈ given es, c = .choose .selectYesNo 0 := by
  induction h with
  | settled h => exact h.confirms
  | calledOff h => exact h.confirms
  | exhausted h => exact h.confirms
  | goesOn h _ _ ih =>
    rw [given_append]
    exact List.forall_mem_append.2 ⟨h.confirms, ih⟩

/-- A wait that ends well ends with a look that finds the class active. -/
theorem Waits.active {deadline : Option Nat} {time : Nat} {es : List Entry} {t : Session σ}
    (h : Waits j deadline time es (.ok true) t) :
    time ≤ t.now ∧ es.getLast? = some ⟨t.now, .asked .activeJob (some j)⟩ := by
  generalize hr : (Except.ok true : Except Halt Bool) = result at h
  induction h with
  | settled h hnow =>
    cases hr
    cases h with
    | active => exact ⟨hnow.ge, by rw [hnow]; rfl⟩
  | calledOff => cases hr
  | exhausted => cases hr
  | goesOn _ hle _ ih =>
    obtain ⟨hnow, hlast⟩ := ih hr
    exact ⟨hle.trans hnow, by rw [List.getLast?_append, hlast]; rfl⟩

variable (p j) in
/-- What a change of class adds, and what comes of it. -/
inductive Changes (s : Session σ) : List Entry → Except Halt Bool → Session σ → Prop
  | active {t : Session σ} : p.activeJob? s = some j → t.now = s.now →
    Changes s [⟨s.now, .asked .activeJob (some j)⟩] (.ok true) t
  | calledOff {t : Session σ} : p.activeJob? s ≠ some j →
    Changes s [⟨s.now, .asked .activeJob (p.activeJob? s)⟩] (.error (.failed .cancelled)) t
  | requests {e : Entry} {es : List Entry} {result : Except Halt Bool} {t : Session σ} :
    p.activeJob? s ≠ some j → e.Gives s.now (.changeJob j) →
    Waits j (deadline? s.now (p.timing.switchTimeout.toNat * 1000)) s.now es result t →
    Changes s (⟨s.now, .asked .activeJob (p.activeJob? s)⟩ :: e :: es) result t

variable (p j)

/-- The class is asked for. -/
def requested (s : Session σ) : Session σ :=
  (p.seen s).begun (.changeJob j) (p.host.start (.changeJob j) s.now (p.seen s).world)

@[simp] theorem now_requested (s : Session σ) : (p.requested j s).now = s.now := by
  simp [requested]

/-- A change of class ends with its first look, or it asks for the class and waits for it. -/
theorem go_changeJob (s : Session σ) : (p.changeJob j).go s =
    if p.activeJob? s = some j then (.ok true, p.seen s)
    else if (p.seen s).isCancelled then (.error (.failed .cancelled), p.seen s)
    else (p.awaitJob j (deadline? s.now (p.timing.switchTimeout.toNat * 1000)) p.rounds).go
      (p.requested j s) := by
  unfold changeJob
  rw [Act.go_bind_ok (p.go_isActive j s)]
  by_cases hactive : p.activeJob? s = some j
  · rw [if_pos hactive, if_pos (by simpa using hactive)]
    rfl
  · rw [if_neg hactive, if_neg (by simpa using hactive)]
    have hcheck := Act.go_check (p.seen s)
    split at hcheck
    · next hc => rw [if_pos hc, Act.go_bind_error hcheck]
    · next hc =>
      have hissue := p.host.go_issue (p.seen s) (.changeJob j)
      rw [now_seen] at hissue
      rw [if_neg hc, Act.go_bind_ok hcheck, Act.go_bind_ok hissue, Act.go_bind_ok (Act.go_now _)]
      rw [Session.now_begun, now_seen]
      rfl

theorem changes_of_changeJob (s : Session σ) : ∃ result t es,
    (p.changeJob j).go s = (result, t) ∧ s.Adds t es ∧ p.Changes j s es result t := by
  have hseen := p.adds_seen s
  rw [go_changeJob]
  by_cases hactive : p.activeJob? s = some j
  · rw [if_pos hactive]
    rw [hactive] at hseen
    exact ⟨_, _, _, rfl, hseen, .active hactive (p.now_seen s)⟩
  · rw [if_neg hactive]
    split
    · exact ⟨_, _, _, rfl, hseen, .calledOff hactive⟩
    · obtain ⟨e, hbegun, hgives⟩ := Session.Adds.begun (p.seen s) (.changeJob j)
        (p.host.start (.changeJob j) s.now (p.seen s).world)
      rw [now_seen] at hgives
      obtain ⟨result, t, es, hgo, hadds, hwaits⟩ := p.waits_of_awaitJob j
        (deadline? s.now (p.timing.switchTimeout.toNat * 1000)) p.rounds (p.requested j s)
      rw [now_requested] at hwaits
      exact ⟨result, t, _, hgo, hseen.trans (Session.Adds.trans hbegun hadds),
        .requests hactive hgives hwaits⟩

/-- The commands of a change: the class is asked for, and then confirmations are given, if
anything is. -/
def Asking (cs : List Command) : Prop :=
  cs = [] ∨ ∃ answers, cs = .changeJob j :: answers ∧ ∀ c ∈ answers, c = .choose .selectYesNo 0

variable {p j} {s t u v : Session σ} {es : List Entry} {x : Except Halt Bool}

theorem Asking.not_mem_equip {cs : List Command} (h : Asking j cs) : .equip ∉ cs := by
  rcases h with rfl | ⟨answers, rfl, hanswers⟩
  · simp
  · intro hmem
    rcases List.mem_cons.1 hmem with h | h
    · cases h
    · cases hanswers _ h

theorem Changes.asking (h : p.Changes j s es x t) : Asking j (given es) := by
  cases h with
  | active => exact .inl rfl
  | calledOff => exact .inl rfl
  | requests _ he hwaits =>
    rw [given_cons, he.given_cons]
    exact .inr ⟨_, rfl, hwaits.confirms⟩

theorem Changes.warranted (h : p.Changes j s es x t) : Warranted j es := by
  cases h with
  | active => exact warranted_cons rfl (.singleton _)
  | calledOff => exact warranted_cons rfl (.singleton _)
  | requests hne he hwaits =>
    have hrequest : Warranted j [⟨s.now, .asked .activeJob (p.activeJob? s)⟩, _] :=
      warranted_cons rfl (.cons_cons (.request hne he) (.singleton _))
    exact hrequest.append hwaits.warranted

theorem Changes.spared (h : p.Changes j s es x t) (hactive : p.activeJob? s = some j) :
    given es = [] := by
  cases h with
  | active => rfl
  | calledOff hne => exact absurd hactive hne
  | requests hne => exact absurd hactive hne

theorem Changes.confirmed (h : p.Changes j s es (.ok true) t) :
    s.now ≤ t.now ∧ es.getLast? = some ⟨t.now, .asked .activeJob (some j)⟩ := by
  cases h with
  | active _ hnow => exact ⟨hnow.ge, by rw [hnow]; rfl⟩
  | requests _ _ hwaits =>
    obtain ⟨hnow, hlast⟩ := hwaits.active
    refine ⟨hnow, ?_⟩
    rw [List.getLast?_cons, List.getLast?_cons, hlast]
    rfl

/-! ### Before the gear -/

variable (p j)

/-- The first rest is over. -/
def rested (s : Session σ) : Session σ :=
  s.moveTo (s.time.sleep s.signal p.timing.switchDelay.toNat).2

/-- What comes before the gear. -/
def restAndChange : Act σ Bool := do
  Act.rest p.timing.switchDelay.toNat
  p.changeJob j

/-- The gear is put on, and a rest follows. -/
def putOnGear : Act σ Bool := do
  p.host.issue .equip
  Act.rest p.timing.switchDelay.toNat
  return true

/-- The gear is on, and the last rest is to come. -/
def geared (v : Session σ) : Session σ := v.begun .equip (p.host.start .equip v.now v.world)

@[simp] theorem now_geared (v : Session σ) : (p.geared v).now = v.now := v.now_begun _ _

theorem go_putOnGear (v : Session σ) : ∃ slept t, p.putOnGear.go v =
    (if slept then .ok true else .error (.failed .cancelled), t) ∧
      t.history = (p.geared v).history ∧
      (slept = true → t.now = v.now + lasting v.now p.timing.switchDelay.toNat) := by
  unfold putOnGear
  rw [Act.go_bind_ok (p.host.go_issue v .equip)]
  have hrest := Act.go_rest (p.geared v) p.timing.switchDelay.toNat
  split at hrest
  · next hslept =>
    refine ⟨true, _, Act.go_bind_ok hrest _, rfl, fun _ => ?_⟩
    rw [← p.now_geared v]
    exact Timeline.now_sleep hslept
  · exact ⟨false, _, Act.go_bind_error hrest _, rfl, nofun⟩

theorem switchAndEquip_eq : p.switchAndEquip j =
    p.restAndChange j >>= fun changed => if !changed then pure false else p.putOnGear := by
  unfold restAndChange
  rw [bind_assoc]
  rfl

/-- What is added before the gear, and what comes of it. -/
structure BeforeGear (s : Session σ) (es : List Entry) (x : Except Halt Bool) (v : Session σ) :
    Prop where
  asking : Asking j (given es)
  warranted : Warranted j es
  spared : p.activeJob? (p.rested s) = some j → given es = []
  confirmed : x = .ok true → s.now + lasting s.now p.timing.switchDelay.toNat ≤ v.now ∧
    es.getLast? = some ⟨v.now, .asked .activeJob (some j)⟩

theorem beforeGear_of_restAndChange (s : Session σ) : ∃ x v es,
    (p.restAndChange j).go s = (x, v) ∧ s.Adds v es ∧ p.BeforeGear j s es x v := by
  unfold restAndChange
  have hrest := Act.go_rest s p.timing.switchDelay.toNat
  split at hrest
  · next hslept =>
    obtain ⟨x, v, es, hgo, hadds, hchanges⟩ := p.changes_of_changeJob j (p.rested s)
    refine ⟨x, v, es, (Act.go_bind_ok hrest _).trans hgo, hadds, hchanges.asking,
      hchanges.warranted, hchanges.spared, ?_⟩
    rintro rfl
    obtain ⟨hnow, hlast⟩ := hchanges.confirmed
    exact ⟨(Timeline.now_sleep hslept).ge.trans hnow, hlast⟩
  · exact ⟨_, _, [], Act.go_bind_error hrest _, .refl s, .inl rfl, warranted_nil, fun _ => rfl, nofun⟩

/-! ### The protocol -/

/-- The protocol of a change of class, with the gear put on after it. -/
structure SwitchProtocol (s : Session σ) (es : List Entry) (result : Except Halt Bool)
    (t : Session σ) : Prop where
  /-- The class is asked for once at most, confirmations are given after that only, and the gear is
  put on once at most, as the last thing. -/
  shape : ∃ asking gear, given es = asking ++ gear ∧ Asking j asking ∧
    (gear = [] ∨ gear = [.equip])
  /-- A confirmation directly follows a look that found it asked for, and the gear one that found
  the class active. -/
  warranted : Warranted j es
  /-- A class that is active when the first rest is over is not asked for. -/
  spared : p.activeJob? (p.rested s) = some j → .changeJob j ∉ given es
  /-- The gear is put on exactly if the change is reported, or called off in the rest behind it. -/
  equips : .equip ∈ given es ↔ result = .ok true ∨
    result = .error (.failed .cancelled) ∧ ∃ v, (p.restAndChange j).go s = (.ok true, v)
  late : result = .ok true → s.now + 2 * min p.timing.switchDelay.toNat longestWait ≤ t.now
  /-- Where no wait is cut, a change takes both of its rests. -/
  rests : result = .ok true → (deadline? t.now p.timing.switchDelay.toNat).isSome →
    s.now + 2 * p.timing.switchDelay.toNat ≤ t.now

variable {p j}

theorem BeforeGear.protocol (h : p.BeforeGear j s es x t) (hgo : (p.restAndChange j).go s = (x, t))
    (hx : x ≠ .ok true) : p.SwitchProtocol j s es x t where
  shape := ⟨_, [], (List.append_nil _).symm, h.asking, .inl rfl⟩
  warranted := h.warranted
  spared hactive := by simp [h.spared hactive]
  equips := by
    constructor
    · exact fun hmem => absurd hmem h.asking.not_mem_equip
    · rintro (hok | ⟨-, v, hv⟩)
      · exact absurd hok hx
      · rw [hgo] at hv
        exact absurd (congrArg Prod.fst hv) hx
  late hok := absurd hok hx
  rests hok := absurd hok hx

theorem BeforeGear.protocol_gear (h : p.BeforeGear j s es (.ok true) v)
    (hgo : (p.restAndChange j).go s = (.ok true, v)) {e : Entry} (he : e.Gives v.now .equip)
    {slept : Bool} (ht : slept = true → t.now = v.now + lasting v.now p.timing.switchDelay.toNat) :
    p.SwitchProtocol j s (es ++ [e])
      (if slept then .ok true else .error (.failed .cancelled)) t := by
  obtain ⟨hnow, hlast⟩ := h.confirmed rfl
  have hgear : given [e] = [.equip] := he.given_cons []
  have hresult : (if slept then .ok true else .error (.failed .cancelled) : Except Halt Bool) =
      .ok true → slept = true := by cases slept <;> simp
  refine ⟨⟨_, [.equip], by rw [given_append, hgear], h.asking, .inr rfl⟩, ?_, ?_, ?_, ?_, ?_⟩
  · refine ⟨?_, List.isChain_append.2 ⟨h.warranted.chain, .singleton e, ?_⟩⟩
    · rw [List.head?_append_of_ne_nil _ (by rintro rfl; cases hlast)]
      exact h.warranted.first
    · rintro x hx y hy
      rw [hlast] at hx
      cases hx
      cases hy
      exact .gear he
  · intro hactive
    rw [given_append, hgear, h.spared hactive]
    simp
  · rw [given_append, hgear]
    cases slept
    · simpa using ⟨v, hgo⟩
    · simp
  · intro hok
    have hend := ht (hresult hok)
    have hfirst := min_le_lasting s.now p.timing.switchDelay.toNat
    have hsecond := min_le_lasting v.now p.timing.switchDelay.toNat
    omega
  · intro hok hpoint
    have hend := ht (hresult hok)
    rw [lasting_eq hpoint (by omega)] at hnow hend
    omega

variable (p j)

theorem protocol_of_switchAndEquip (s : Session σ) : ∃ result t es,
    (p.switchAndEquip j).go s = (result, t) ∧ s.Adds t es ∧ p.SwitchProtocol j s es result t := by
  obtain ⟨x, v, es, hgo, hadds, hbefore⟩ := p.beforeGear_of_restAndChange j s
  rw [switchAndEquip_eq]
  match x with
  | .error e => exact ⟨_, v, es, Act.go_bind_error hgo _, hadds, hbefore.protocol hgo nofun⟩
  | .ok false => exact ⟨_, v, es, Act.go_bind_ok hgo _, hadds, hbefore.protocol hgo nofun⟩
  | .ok true =>
    obtain ⟨e, hbegun, hgives⟩ := Session.Adds.begun v .equip (p.host.start .equip v.now v.world)
    obtain ⟨slept, t, hgear, hhistory, hnow⟩ := p.go_putOnGear v
    have hadded : v.Adds t [e] := hhistory.trans hbegun
    exact ⟨_, t, es ++ [e], (Act.go_bind_ok hgo _).trans hgear, hadds.trans hadded,
      hbefore.protocol_gear hgo hgives hnow⟩

/-- Before the gear is put on, the class was seen to be active. -/
theorem exists_asked_of_switchAndEquip (hgo : (p.switchAndEquip j).go s = (.ok true, t))
    (hadds : s.Adds t es) : ∃ time, ⟨time, .asked .activeJob (some j)⟩ ∈ es := by
  obtain ⟨result, t', es', hgo', hadds', hprotocol⟩ := p.protocol_of_switchAndEquip j s
  rw [hgo] at hgo'
  cases hgo'
  rw [hadds.unique hadds']
  exact hprotocol.warranted.exists_asked (hprotocol.equips.2 (.inl rfl))

/-! ### Changes that come to their end -/

theorem awaitJob_rounds (n : Nat) (deadline : Option Nat) (rounds : Nat) :
    ({ p with rounds := n } : Setup σ).awaitJob j deadline rounds = p.awaitJob j deadline rounds := by
  induction rounds with
  | zero =>
    unfold awaitJob
    rfl
  | succ rounds ih =>
    unfold awaitJob
    simp only [ih]
    rfl

/-- Waiting comes to its end by itself, if it may take as many rounds as there are gaps in the time
that is left; more rounds do not change it. -/
theorem exists_awaitJob (hgap : 0 < p.gap) (deadline : Nat) (s : Session σ) : ∃ result t,
    result ≠ .error .endless ∧ ∀ rounds, deadline ≤ s.now + rounds * p.gap →
      (p.awaitJob j (some deadline) rounds).go s = (result, t) := by
  induction hk : deadline - s.now using Nat.strong_induction_on generalizing s with
  | _ k ih =>
  subst hk
  obtain ⟨settled, u, es, hgo, -, hnow, hturn⟩ := p.waitTurn_of_awaitRound j (some deadline) s
  cases settled with
  | some active =>
    exact ⟨.ok active, u, by simp, fun rounds _ => go_awaitJob_of_settled hgo rounds⟩
  | none =>
    have hlt : s.now < deadline := by
      cases hturn with
      | goesOn _ hp => simpa [isPast] using hp
    cases hslept : (u.time.sleep u.signal p.timing.tick.toNat).1 with
    | false =>
      refine ⟨.error (.failed .cancelled), p.ticked u, by simp, fun rounds _ => ?_⟩
      rw [go_awaitJob_of_none hgo, hslept]
      rfl
    | true =>
      have hlater : s.now + p.gap ≤ (p.ticked u).now := by
        rw [← hnow]
        exact u.time.min_le_of_sleep hslept
      obtain ⟨result, t, hresult, hrun⟩ := ih (deadline - (p.ticked u).now) (by omega) _ rfl
      refine ⟨result, t, hresult, fun rounds hrounds => ?_⟩
      cases rounds with
      | zero => omega
      | succ rounds =>
        rw [Nat.add_one_mul] at hrounds
        rw [go_awaitJob_of_none hgo, hslept]
        exact hrun rounds (by omega)

theorem exists_changeJob (hgap : 0 < p.gap) (s : Session σ)
    (htimeout : (deadline? s.now (p.timing.switchTimeout.toNat * 1000)).isSome) : ∃ result t,
    result ≠ .error .endless ∧ ∀ rounds, p.timing.switchTimeout.toNat * 1000 ≤ rounds * p.gap →
      (({ p with rounds } : Setup σ).changeJob j).go s = (result, t) := by
  generalize hd : s.now + p.timing.switchTimeout.toNat * 1000 = deadline
  obtain ⟨result, t, hresult, hrun⟩ := p.exists_awaitJob j hgap deadline (p.requested j s)
  rw [now_requested] at hrun
  have hchange (rounds : Nat) : (({ p with rounds } : Setup σ).changeJob j).go s =
      if p.activeJob? s = some j then (.ok true, p.seen s)
      else if (p.seen s).isCancelled then (.error (.failed .cancelled), p.seen s)
      else (p.awaitJob j (some deadline) rounds).go (p.requested j s) := by
    rw [go_changeJob, awaitJob_rounds, ← hd, ← deadline?_of_isSome htimeout]
    rfl
  by_cases hactive : p.activeJob? s = some j
  · refine ⟨.ok true, p.seen s, by simp, fun rounds _ => ?_⟩
    rw [hchange, if_pos hactive]
  · by_cases hcancelled : (p.seen s).isCancelled
    · refine ⟨.error (.failed .cancelled), p.seen s, by simp, fun rounds _ => ?_⟩
      rw [hchange, if_neg hactive, if_pos hcancelled]
    · refine ⟨result, t, hresult, fun rounds hrounds => ?_⟩
      rw [hchange, if_neg hactive, if_neg hcancelled]
      exact hrun rounds (by omega)

theorem exists_switchAndEquip (hgap : 0 < p.gap) (s : Session σ)
    (htimeout : (deadline? (p.rested s).now (p.timing.switchTimeout.toNat * 1000)).isSome) :
    ∃ result t, result ≠ .error .endless ∧
      ∀ rounds, p.timing.switchTimeout.toNat * 1000 ≤ rounds * p.gap →
        (({ p with rounds } : Setup σ).switchAndEquip j).go s = (result, t) := by
  have hrest := Act.go_rest s p.timing.switchDelay.toNat
  split at hrest
  · obtain ⟨x, v, hx, hchange⟩ := p.exists_changeJob j hgap (p.rested s) htimeout
    have hprepare (rounds : Nat) (hrounds : p.timing.switchTimeout.toNat * 1000 ≤ rounds * p.gap) :
        (({ p with rounds } : Setup σ).restAndChange j).go s = (x, v) :=
      (Act.go_bind_ok hrest _).trans (hchange rounds hrounds)
    match x with
    | .error e =>
      refine ⟨.error e, v, by simpa using hx, fun rounds hrounds => ?_⟩
      rw [switchAndEquip_eq, Act.go_bind_error (hprepare rounds hrounds)]
    | .ok false =>
      refine ⟨.ok false, v, by simp, fun rounds hrounds => ?_⟩
      rw [switchAndEquip_eq, Act.go_bind_ok (hprepare rounds hrounds)]
      rfl
    | .ok true =>
      obtain ⟨slept, t, hgear, -, -⟩ := p.go_putOnGear v
      refine ⟨if slept then .ok true else .error (.failed .cancelled), t, ?_,
        fun rounds hrounds => ?_⟩
      · cases slept <;> simp
      · rw [switchAndEquip_eq, Act.go_bind_ok (hprepare rounds hrounds)]
        exact hgear
  · exact ⟨.error (.failed .cancelled), _, by simp, fun rounds _ => Act.go_bind_error hrest _⟩

/-- Whatever the game does, a change of class with the gear put on after it gives its commands by
the protocol; and if the timeout of the change is a point in time, it comes to its end by itself,
without a limit on its rounds that it would notice. -/
theorem switchAndEquip_follows_protocol (p : Setup σ) (j : Job) (s : Session σ)
    (htick : 0 < p.timing.tick) :
    (∃ result t es, (p.switchAndEquip j).go s = (result, t) ∧ s.Adds t es ∧
      p.SwitchProtocol j s es result t) ∧
    ((deadline? (p.rested s).now (p.timing.switchTimeout.toNat * 1000)).isSome →
      ∃ result t, result ≠ .error .endless ∧
        ∀ rounds, p.timing.switchTimeout.toNat * 1000 ≤ rounds * p.gap →
          (({ p with rounds } : Setup σ).switchAndEquip j).go s = (result, t)) := by
  have hgap : 0 < p.gap := Nat.lt_min.2 ⟨UInt64.lt_iff_toNat_lt.1 htick, by decide⟩
  exact ⟨p.protocol_of_switchAndEquip j s, p.exists_switchAndEquip j hgap s⟩

/-- A game that asks for a confirmation: forty rounds are enough, and when six seconds are over, the
class is changed and the gear is on. -/
theorem switchAndEquip_follows_protocol_of_prompt :
    let p : Setup Scenario := { host := Scenario.host, timing := {}, rounds := 40 }
    let s : Session Scenario := { world := { changePrompts := true } }
    0 < p.timing.tick ∧ ∃ t es, s.Adds t es ∧ Warranted .weaver es ∧
      .equip ∈ given es ∧ 6000 ≤ t.now ∧
      ∀ rounds ≥ 40, (({ p with rounds } : Setup Scenario).switchAndEquip .weaver).go s =
        (.ok true, t) := by
  intro p s
  have htick : 0 < p.timing.tick := by decide
  obtain ⟨⟨result, t, es, hgo, hadds, hprotocol⟩, hends⟩ :=
    p.switchAndEquip_follows_protocol .weaver s htick
  have hok : ((p.switchAndEquip .weaver).go s).1 = .ok true := by decide +kernel
  rw [hgo] at hok
  subst hok
  obtain ⟨result', t', -, hrun⟩ := hends (by decide +kernel)
  have hsame : (.ok true, t) = (result', t') := hgo.symm.trans (hrun 40 (by decide))
  cases hsame
  refine ⟨htick, t, es, hadds, hprotocol.warranted, hprotocol.equips.2 (.inl rfl),
    hprotocol.late rfl, fun rounds hrounds => hrun rounds ?_⟩
  have hgap : p.gap = 250 := by decide
  have htimeout : p.timing.switchTimeout.toNat * 1000 = 10000 := by decide
  rw [hgap, htimeout]
  omega

end Setup
end Progression
