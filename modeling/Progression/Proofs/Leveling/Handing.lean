import Progression.Proofs.Directing

/-!
How often work hands over orders. `Hands` says of entries that orders are handed over once at most;
`Setup.Serves` says of work that this holds of what it adds, and that it stops only when it is called
off or stuck; it holds of a sequence when what the parts hand over adds up. `Setup.Directed` is the
same of work under a directive of its own.
-/

namespace Progression

variable {σ α β : Type}

/-! ### What entries say about leveling -/

/-- The orders that an event hands over. -/
def Event.orders? : Event → Option (List Order)
  | .did (.order orders) _ _ => some orders
  | _ => none

/-- The orders that an event hands over, behind the directive that it does so under. -/
def Event.handed? : Event → Option (String × List Order)
  | .did (.order orders) directive _ => some (directive, orders)
  | _ => none

/-- The level that an event reads of a class. -/
def Event.read? (j : Job) : Event → Option UInt32
  | .asked (.level k) n => if k = j then some n else none
  | _ => none

/-- The level at which an event begins a round. -/
def Event.round? : Event → Option UInt32
  | .round _ n => some n
  | _ => none

/-- What is handed over, the first one first. -/
def handed (es : List Entry) : List (List Order) := es.filterMap (·.event.orders?)

/-- The levels read of a class, the first one first. -/
def reads (j : Job) (es : List Entry) : List UInt32 := es.filterMap (·.event.read? j)

/-- The levels at which rounds begin, the first one first. -/
def rounds (es : List Entry) : List UInt32 := es.filterMap (·.event.round?)

/-- At most one thing, and it is of a kind. -/
def AtMostOne (B : α → Prop) (xs : List α) : Prop := xs = [] ∨ ∃ x, xs = [x] ∧ B x

/-- Entries that hand over at most once, orders of a kind, and begin no round. -/
structure Hands (B : List Order → Prop) (es : List Entry) : Prop where
  orders : AtMostOne B (handed es)
  marks : rounds es = []

/-- No orders at all. -/
def noOrders (_ : List Order) : Prop := False

/-- What an event hands over is what it does. -/
theorem Event.exists_of_handed? {e : Event} {d : String} {orders : List Order}
    (h : e.handed? = some (d, orders)) : ∃ detail, e = .did (.order orders) d detail := by
  cases e with
  | did c d' detail =>
    cases c with
    | order => cases h; exact ⟨detail, rfl⟩
    | _ => cases h
  | _ => cases h

theorem Event.IsLook.handed?_eq_none {e : Event} (h : e.IsLook) : e.handed? = none := by
  cases e with
  | asked => rfl
  | _ => exact h.elim

section Entries

variable {B : List Order → Prop} {es fs : List Entry} {j : Job}

theorem handed_append : handed (es ++ fs) = handed es ++ handed fs := List.filterMap_append

theorem reads_append : reads j (es ++ fs) = reads j es ++ reads j fs := List.filterMap_append

theorem rounds_append : rounds (es ++ fs) = rounds es ++ rounds fs := List.filterMap_append

theorem Hands.handed_eq (h : Hands noOrders es) : handed es = [] :=
  h.orders.resolve_right fun ⟨_, _, hf⟩ => hf

theorem Hands.of_eq_nil (h : handed es = []) (hr : rounds es = []) : Hands B es := ⟨.inl h, hr⟩

theorem Hands.of_noOrders (h : Hands noOrders es) : Hands B es := .of_eq_nil h.handed_eq h.marks

theorem Hands.append (h : Hands B es) (h' : Hands noOrders fs) : Hands B (es ++ fs) where
  orders := by rw [handed_append, h'.handed_eq, List.append_nil]; exact h.orders
  marks := by rw [rounds_append, h.marks, h'.marks]; rfl

theorem Hands.after (h' : Hands B fs) (h : Hands noOrders es) : Hands B (es ++ fs) where
  orders := by rw [handed_append, h.handed_eq]; exact h'.orders
  marks := by rw [rounds_append, h.marks, h'.marks]; rfl

theorem Hands.mono {B' : List Order → Prop} (h : Hands B es) (hB : ∀ orders, B orders → B' orders) :
    Hands B' es :=
  ⟨h.orders.imp id fun ⟨orders, he, ho⟩ => ⟨orders, he, hB orders ho⟩, h.marks⟩

theorem Hands.of_mem (h : Hands B es) {e : Entry} (he : e ∈ es) {d : String} {orders : List Order}
    (ho : e.event.handed? = some (d, orders)) : B orders := by
  have hmem : orders ∈ handed es := by
    obtain ⟨detail, hev⟩ := Event.exists_of_handed? ho
    exact List.mem_filterMap.2 ⟨e, he, by rw [hev]; rfl⟩
  rcases h.orders with hnil | ⟨orders', hone, hB⟩
  · rw [hnil] at hmem
    cases hmem
  · rw [hone] at hmem
    rwa [List.mem_singleton.1 hmem]

theorem hands_of_looks (h : ∀ e ∈ es, e.event.IsLook) : Hands B es := by
  refine .of_eq_nil (List.filterMap_eq_nil_iff.2 ?_) (List.filterMap_eq_nil_iff.2 ?_)
  all_goals
    intro e he
    have hl := h e he
    cases hev : e.event with
    | asked => rfl
    | _ => rw [hev] at hl; exact hl.elim

theorem hands_of_within {C : Command → Prop} (h : ∀ e ∈ es, e.event.Within C)
    (hC : ∀ orders, ¬ C (.order orders)) : Hands B es := by
  refine .of_eq_nil (List.filterMap_eq_nil_iff.2 ?_) (List.filterMap_eq_nil_iff.2 ?_)
  · intro e he
    cases hev : e.event with
    | did c d x =>
      cases c with
      | order orders =>
        have hc := h e he
        rw [hev] at hc
        exact absurd hc (hC orders)
      | _ => rfl
    | _ => rfl
  · intro e he
    cases hev : e.event with
    | round j n =>
      have hc := h e he
      rw [hev] at hc
      exact hc.elim
    | _ => rfl

theorem hands_one {time : Nat} {c : Command} {d x : String} {orders : List Order}
    (hB : B orders) (hc : c = .order orders) (h : Hands noOrders es) :
    Hands B (⟨time, .did c d x⟩ :: es) := by
  subst hc
  exact ⟨.inr ⟨orders, congrArg (orders :: ·) h.handed_eq, hB⟩, h.marks⟩

end Entries

/-! ### Serving a round -/

namespace Setup

/-- The last thing done was a meeting or a change of class that used up its rounds. -/
def Stuck (p : Setup σ) (t : Session σ) : Prop :=
  ∃ s, (∃ kind r, (p.interact kind r).go s = (.error .endless, t)) ∨
    ∃ j, (p.switchAndEquip j).go s = (.error .endless, t)

/-- Work stops because it is called off, or because a meeting or a change of class it waits for does
not come to its end. -/
inductive Halts (p : Setup σ) (t : Session σ) : Halt → Prop
  | calledOff : Halts p t (.failed .cancelled)
  | stuck : p.Stuck t → Halts p t .endless

/-- What work does for a round: it gives commands of a class under the directive it finds, hands
over at most once, orders of a kind, and publishes nothing. -/
structure Served (p : Setup σ) (B : List Order → Prop) (C : Command → Prop) (s : Session σ)
    (es : List Entry) (result : Except Halt α) (t : Session σ) : Prop where
  adds : s.Adds t es
  hands : Hands B es
  within : ∀ e ∈ es, e.event.In [s.status.snapshot.directive] C
  keeps : s.Keeps t
  halts : ∀ e, result = .error e → p.Halts t e

/-- Work that serves a round. -/
def Serves (p : Setup σ) (B : List Order → Prop) (C : Command → Prop) (a : Act σ α) : Prop :=
  ∀ s, ∃ es, p.Served B C s es (a.go s).1 (a.go s).2

variable {p : Setup σ} {A B : List Order → Prop} {C D : Command → Prop} {a : Act σ α}
  {f : α → Act σ β}

/-- A sequence serves a round if its parts do and what they hand over adds up. -/
theorem Serves.bind_of {E : List Order → Prop} (ha : p.Serves A C a)
    (hf : ∀ x, p.Serves B C (f x)) (hA : ∀ es, Hands A es → Hands E es)
    (hB : ∀ es fs, Hands A es → Hands B fs → Hands E (es ++ fs)) : p.Serves E C (a >>= f) := by
  intro s
  obtain ⟨es, hes⟩ := ha s
  rcases hr : a.go s with ⟨e | x, t⟩ <;> rw [hr] at hes
  · rw [Act.go_bind_error hr]
    exact ⟨es, hes.adds, hA es hes.hands, hes.within, hes.keeps, fun e' he =>
      hes.halts e' (by cases he; rfl)⟩
  · obtain ⟨fs, hfs⟩ := hf x t
    rw [Act.go_bind_ok hr]
    have hw := hfs.within
    rw [hes.keeps.status] at hw
    exact ⟨es ++ fs, hes.adds.trans hfs.adds, hB es fs hes.hands hfs.hands,
      List.forall_mem_append.2 ⟨hes.within, hw⟩, hes.keeps.trans hfs.keeps, hfs.halts⟩

theorem Serves.bind (ha : p.Serves B C a) (hf : ∀ x, p.Serves noOrders C (f x)) :
    p.Serves B C (a >>= f) :=
  ha.bind_of hf (fun _ h => h) fun _ _ h h' => h.append h'

theorem Serves.before (ha : p.Serves noOrders C a) (hf : ∀ x, p.Serves B C (f x)) :
    p.Serves B C (a >>= f) :=
  ha.bind_of hf (fun _ h => h.of_noOrders) fun _ _ h h' => h'.after h

/-- Work that gives commands of a class with no order in it. -/
theorem serves_of_gives (ha : a.Gives D) (hD : ∀ c, D c → C c) (ho : ∀ orders, ¬ D (.order orders))
    (hs : ∀ s t, a.go s = (.error .endless, t) → p.Stuck t) : p.Serves B C a := by
  intro s
  obtain ⟨⟨es, had, hes⟩, hq, -⟩ := ha s
  obtain ⟨⟨fs, had', hfs⟩, hk⟩ := ha.remains s
  cases had.unique had'
  refine ⟨es, had, hands_of_within hes ho, fun e he => (hfs e he).mono (fun _ h => h) hD, hk, ?_⟩
  intro e he
  rcases hq e he with rfl | rfl
  · exact .calledOff
  · exact .stuck (hs s _ (Prod.ext he rfl))

theorem serves_of_looks (ha : p.host.Looks a) : p.Serves B C a := by
  intro s
  obtain ⟨x, t, es, hgo, hg⟩ := ha s
  rw [hgo]
  exact ⟨es, hg.adds, hands_of_looks hg.looks, fun e he => Event.in_of_isLook (hg.looks e he),
    hg.keeps, nofun⟩

theorem serves_pure (x : α) : p.Serves B C (pure x : Act σ α) := serves_of_looks (Host.looks_pure x)

theorem serves_cancelled : p.Serves B C (Act.fail .cancelled : Act σ α) :=
  fun s => ⟨[], .refl s, .of_eq_nil rfl rfl, by simp, .refl s, fun e he => by
    cases he; exact .calledOff⟩

theorem serves_interact {kind : Interaction} {r : Interaction.Request}
    (hC : ∀ c, kind.IsPart r c → C c) : p.Serves B C (p.interact kind r) := by
  refine serves_of_gives (p.gives_interact kind r) hC ?_ fun s t h => ⟨s, .inl ⟨kind, r, h⟩⟩
  rintro orders (h | h | h | ⟨w, -, h⟩)
  · cases h
  · cases h
  · cases h
  · cases w <;> cases h

theorem serves_switchAndEquip {j : Job} (hC : ∀ c, IsChange j c → C c) :
    p.Serves B C (p.switchAndEquip j) := by
  refine serves_of_gives (p.gives_switchAndEquip j) hC ?_ fun s t h => ⟨s, .inr ⟨j, h⟩⟩
  rintro orders (h | h | h) <;> cases h

/-- A command that may take time is given at most once. -/
theorem hands_of_attempted {orders : List Order} (hB : B orders) {time : Nat} {t : Session σ}
    {es : List Entry} {success : Option Bool}
    (h : Host.Attempted (.order orders) time t es success) : Hands B es := by
  have one {e : Entry} {fs : List Entry} (he : e.Gives time (.order orders))
      (hfs : Hands noOrders fs) : Hands B (e :: fs) := by
    obtain ⟨time', event⟩ := e
    cases event with
    | did c d x => exact hands_one hB (Option.some.inj he.2) hfs
    | _ => cases he.2
  cases h with
  | refused => exact .of_eq_nil rfl rfl
  | abandoned _ he => exact one he (.of_eq_nil rfl rfl)
  | ended success he => exact one he (.of_eq_nil rfl rfl)

theorem serves_attempt? {orders : List Order} (hB : B orders) (hC : C (.order orders)) :
    p.Serves B C (p.host.attempt? (.order orders)) := by
  intro s
  obtain ⟨success, t, es, hgo, had, -, ha⟩ := p.host.attempted_of_attempt? (.order orders) s
  obtain ⟨⟨fs, had', hfs⟩, hk⟩ := (p.host.gives_attempt? hC).remains s
  rw [hgo] at had' hk ⊢
  cases had.unique had'
  exact ⟨es, had, hands_of_attempted hB ha, hfs, hk, nofun⟩

theorem serves_attempt {orders : List Order} (hB : B orders) (hC : C (.order orders)) :
    p.Serves B C (p.host.attempt (.order orders)) := by
  refine (serves_attempt? hB hC).bind ?_
  intro success
  cases success with
  | some success => exact serves_pure success
  | none => exact serves_cancelled

/-- What work does for a round under directives of its own. -/
structure Directed (p : Setup σ) (D : List String) (B : List Order → Prop) (C : Command → Prop)
    (s : Session σ) (es : List Entry) (result : Except Halt α) (t : Session σ) : Prop where
  adds : s.Adds t es
  hands : Hands B es
  within : ∀ e ∈ es, e.event.In D C
  retains : s.Retains t
  halts : ∀ e, result = .error e → p.Halts t e

theorem Serves.directed (ha : p.Serves B C a) (directive detail : String) (s : Session σ) :
    ∃ result t es, (Act.publishDirective directive detail >>= fun _ => a).go s = (result, t) ∧
      p.Directed [directive] B C s es result t := by
  obtain ⟨es, hes⟩ := ha (s.directed directive detail)
  exact ⟨_, _, es, Act.go_bind_ok (Act.go_publishDirective s directive detail) _, hes.adds,
    hes.hands, hes.within, (s.retains_directed directive detail).trans hes.keeps.retains, hes.halts⟩

theorem directed_pure (x : α) {D : List String} (s : Session σ) :
    ∃ result t es, (pure x : Act σ α).go s = (result, t) ∧ p.Directed D B C s es result t :=
  ⟨_, s, [], rfl, .refl s, .of_eq_nil rfl rfl, by simp, ⟨rfl, rfl, rfl⟩, nofun⟩

theorem Directed.works {D E : List String} {C' : Command → Prop} {s t : Session σ}
    {es : List Entry} {result : Except Halt α} (h : p.Directed D B C s es result t)
    (hD : ∀ d ∈ D, d ∈ E) (hC : ∀ c, C c → C' c) : s.Works E C' es t :=
  Session.Works.mono ⟨⟨h.adds, h.within⟩, h.retains.summary⟩ hD hC

/-- Orders are handed over under the directive of the work, and are of its kind. -/
theorem Directed.order {directive : String} {s t : Session σ} {es : List Entry}
    {result : Except Halt α} (h : p.Directed [directive] B C s es result t) {e : Entry} (he : e ∈ es)
    {d : String} {orders : List Order} (ho : e.event.handed? = some (d, orders)) :
    d = directive ∧ B orders := by
  refine ⟨?_, h.hands.of_mem he ho⟩
  obtain ⟨detail, hev⟩ := Event.exists_of_handed? ho
  have hin := h.within e he
  rw [hev] at hin
  exact List.mem_singleton.1 hin.1

theorem Directed.mono {D E : List String} {B' : List Order → Prop} {C' : Command → Prop}
    {s t : Session σ} {es : List Entry} {result : Except Halt α}
    (h : p.Directed D B C s es result t) (hD : ∀ d ∈ D, d ∈ E) (hB : ∀ orders, B orders → B' orders)
    (hC : ∀ c, C c → C' c) : p.Directed E B' C' s es result t :=
  { h with
    hands := h.hands.mono hB
    within := fun e he => (h.within e he).mono hD hC }

end Setup
end Progression
