import Mathlib.Data.List.Nodup
import Mathlib.Data.List.Perm.Subperm
import Progression.Order.Batch
import Progression.Proofs.Json.Numbers
import Progression.Proofs.Json.Reading

/-!
Orders as they are handed over. A batch is read back from its text, whatever its orders say, and an
order from its own object, in whatever order its fields stand and whichever of those are missing
that say what a missing field says.
-/

namespace Progression

namespace Json

variable {k : String} {v : Json} {n : Nat} {vs : List Json} {fs : List (String × Json)}

/-! ### The field of a name -/

theorem field?_eq_none (h : k ∉ fs.map (·.1)) : field? k fs = none := by
  induction fs with
  | nil => rfl
  | cons f fs ih =>
    obtain ⟨hne, hfs⟩ := not_or.1 (List.mem_cons.not.1 h)
    rw [field?, ih hfs, if_neg (Ne.symm hne)]
    rfl

/-- Where no name is given twice, a field that is there is found. -/
theorem field?_eq_some (hnodup : (fs.map (·.1)).Nodup) (h : (k, v) ∈ fs) : field? k fs = some v := by
  induction fs with
  | nil => cases h
  | cons f fs ih =>
    obtain ⟨hnew, hfs⟩ := List.nodup_cons.1 hnodup
    rcases List.mem_cons.1 h with rfl | h
    · rw [field?, field?_eq_none hnew, if_pos rfl]
      rfl
    · rw [field?, ih hfs h]
      rfl

/-! ### Arrays and objects by their parts -/

theorem spelledItems_iff : SpelledItems vs ↔ ∀ v ∈ vs, Spelled v := by
  induction vs with
  | nil => simp [SpelledItems]
  | cons v vs ih => simp [SpelledItems, ih]

theorem spelledFields_iff : SpelledFields fs ↔ ∀ f ∈ fs, Spelled f.2 := by
  induction fs with
  | nil => simp [SpelledFields]
  | cons f fs ih => simp [SpelledFields, ih]

theorem depthOf_le_iff : depthOf vs ≤ n ↔ ∀ v ∈ vs, v.depth ≤ n := by
  induction vs with
  | nil => simp [depthOf]
  | cons v vs ih =>
    rw [depthOf, Nat.max_le, ih]
    simp

theorem depthOfFields_le_iff : depthOfFields fs ≤ n ↔ ∀ f ∈ fs, f.2.depth ≤ n := by
  induction fs with
  | nil => simp [depthOfFields]
  | cons f fs ih =>
    rw [depthOfFields, Nat.max_le, ih]
    simp

theorem areFinite_iff : areFinite vs = true ↔ ∀ v ∈ vs, v.isFinite = true := by
  induction vs with
  | nil => simp [areFinite]
  | cons v vs ih => simp [areFinite, ih]

theorem areFiniteFields_iff : areFiniteFields fs = true ↔ ∀ f ∈ fs, f.2.isFinite = true := by
  induction fs with
  | nil => simp [areFiniteFields]
  | cons f fs ih => simp [areFiniteFields, ih]

/-- A value that a reader of batches takes up, with its nesting. -/
structure Sound (n : Nat) (v : Json) : Prop where
  spelled : Spelled v
  depth : v.depth ≤ n
  finite : v.isFinite = true

theorem sound_ofNat (n : UInt32) : Sound 0 (ofNat n.toNat) where
  spelled := by simpa [Spelled, ofNat, Number.text] using isNumber_decimal n.toNat
  depth := Nat.le_refl 0
  finite := isFinite_ofNat n

theorem sound_bool (b : Bool) : Sound 0 (bool b) := ⟨trivial, Nat.le_refl 0, rfl⟩

theorem sound_string (s : String) : Sound 0 (string s) := ⟨trivial, Nat.le_refl 0, rfl⟩

theorem sound_array (h : ∀ v ∈ vs, Sound n v) : Sound (n + 1) (array vs) where
  spelled := spelledItems_iff.2 fun v hv => (h v hv).spelled
  depth := Nat.succ_le_succ (depthOf_le_iff.2 fun v hv => (h v hv).depth)
  finite := areFinite_iff.2 fun v hv => (h v hv).finite

theorem sound_object (h : ∀ f ∈ fs, Sound n f.2) : Sound (n + 1) (object fs) where
  spelled := spelledFields_iff.2 fun f hf => (h f hf).spelled
  depth := Nat.succ_le_succ (depthOfFields_le_iff.2 fun f hf => (h f hf).depth)
  finite := areFiniteFields_iff.2 fun f hf => (h f hf).finite

end Json

namespace Order

open Json (optional field? Sound)

/-! ### Fields -/

/-- The fields of an order, as they are written. -/
def fields (o : Order) : List (String × Json) :=
  fieldNames.zip
    [.ofNat o.id.toNat, .ofNat o.group.toNat, .ofNat o.item.toNat, .ofNat o.amount.toNat,
      .bool o.enabled, .string o.kind, .bool o.quickSynth, .bool o.suborderQuickSynth, .bool o.hq,
      .ofNat o.food.toNat, .bool o.primary, .ofNat o.manual.toNat, .ofNat o.medicine.toNat]

theorem toJson_eq (o : Order) : o.toJson = .object o.fields := rfl

theorem map_fields (o : Order) : o.fields.map (·.1) = fieldNames := rfl

theorem sound_fields (o : Order) : ∀ f ∈ o.fields, Sound 0 f.2 := by
  simp [fields, fieldNames, Json.sound_ofNat, Json.sound_bool, Json.sound_string]

/-- An order that says nothing but what cannot be missing. -/
def blank : Order := { item := 0, amount := 0, kind := "" }

/-- The fields that may be missing, with what they say then. -/
def defaults : List (String × Json) := blank.fields.filter (·.1 ∉ ["Item", "Amount", "Type"])

/-- The fields of an order in any order, where only defaults may be missing. -/
structure IsForm (o : Order) (fs : List (String × Json)) : Prop where
  subperm : fs.Subperm o.fields
  missing : ∀ f ∈ o.fields, f ∈ fs ∨ f ∈ defaults

variable {o : Order} {fs : List (String × Json)} {f f' : String × Json}

theorem isForm_fields (o : Order) : o.IsForm o.fields := ⟨.refl _, fun _ hf => .inl hf⟩

theorem nodup_map_fields (o : Order) : (o.fields.map Prod.fst).Nodup := by
  rw [map_fields]
  decide

theorem eq_of_mem_fields (hf : f ∈ o.fields) (hf' : f' ∈ o.fields) (h : f.1 = f'.1) : f = f' :=
  List.inj_on_of_nodup_map o.nodup_map_fields hf hf' h

namespace IsForm

variable {α : Type} {i : Nat} {k : String} {w v : Json} {x d : α} {read : Json → Option α}

theorem sound (h : o.IsForm fs) : Sound 1 (.object fs) :=
  Json.sound_object fun f hf => sound_fields o f (h.subperm.subset hf)

/-- A field is found if it is there; if not, it says what a missing one says. -/
theorem field? (h : o.IsForm fs) (hw : (k, w) ∈ o.fields) :
    Json.field? k fs = some w ∨ Json.field? k fs = none ∧ (k, w) ∈ defaults := by
  by_cases hmem : (k, w) ∈ fs
  · obtain ⟨gs, hperm, hsublist⟩ := h.subperm
    have hnodup := (hperm.map Prod.fst).nodup_iff.1
      ((hsublist.map Prod.fst).nodup o.nodup_map_fields)
    exact .inl (Json.field?_eq_some hnodup hmem)
  · refine .inr ⟨Json.field?_eq_none fun hk => ?_, (h.missing _ hw).resolve_left hmem⟩
    obtain ⟨f, hf, rfl⟩ := List.mem_map.1 hk
    exact hmem (eq_of_mem_fields (h.subperm.subset hf) hw rfl ▸ hf)

theorem required (h : o.IsForm fs) (hw : o.fields[i]? = some (k, w))
    (hk : k ∈ ["Item", "Amount", "Type"]) : Json.field? k fs = some w := by
  refine (h.field? (List.mem_of_getElem? hw)).resolve_right fun hmissing => ?_
  have hkept := (List.mem_filter.1 hmissing.2).2
  simp only [decide_not, Bool.not_eq_true', decide_eq_false_iff_not] at hkept
  exact hkept hk

/-- A field that may be missing is read as what it says. -/
theorem optional (h : o.IsForm fs) (hw : o.fields[i]? = some (k, w)) (hx : read w = some x)
    (hv : blank.fields[i]? = some (k, v)) (hd : read v = some d) :
    Json.optional d read (Json.field? k fs) = some x := by
  rcases h.field? (List.mem_of_getElem? hw) with hk | ⟨hk, hdefault⟩
  · rw [hk]
    exact hx
  · have heq : (k, w) = (k, v) :=
      eq_of_mem_fields (List.mem_filter.1 hdefault).1 (List.mem_of_getElem? hv) rfl
    cases heq
    rw [hk, ← hx, hd]
    rfl

/-- An order is read from its fields. -/
theorem ofJson? (h : o.IsForm fs) : Order.ofJson? (.object fs) = some o := by
  have number (i : Nat) {k : String} {n d : UInt32} (hw : o.fields[i]? = some (k, Json.ofNat n.toNat))
      (hv : blank.fields[i]? = some (k, Json.ofNat d.toNat)) :
      Json.optional d Json.word32? (Json.field? k fs) = some n :=
    h.optional hw (Json.word32?_ofNat n) hv (Json.word32?_ofNat d)
  have flag (i : Nat) {k : String} {b d : Bool} (hw : o.fields[i]? = some (k, Json.bool b))
      (hv : blank.fields[i]? = some (k, Json.bool d)) :
      Json.optional d Json.bool? (Json.field? k fs) = some b := h.optional hw rfl hv rfl
  have hid := number 0 (d := 1) rfl rfl
  have hgroup := number 1 (d := 1) rfl rfl
  have hitem := h.required (i := 2) rfl (by simp)
  have hamount := h.required (i := 3) rfl (by simp)
  have henabled := flag 4 (d := true) rfl rfl
  have hkind := h.required (i := 5) rfl (by simp)
  have hquickSynth := flag 6 (d := false) rfl rfl
  have hsuborder := flag 7 (d := false) rfl rfl
  have hhq := flag 8 (d := false) rfl rfl
  have hfood := number 9 (d := 0) rfl rfl
  have hprimary := flag 10 (d := true) rfl rfl
  have hmanual := number 11 (d := 0) rfl rfl
  have hmedicine := number 12 (d := 0) rfl rfl
  have hrecord : (Json.object fs).record? fieldNames =
      some (fieldNames.map (Json.field? · fs)) := rfl
  unfold Order.ofJson?
  rw [hrecord]
  simp only [fieldNames, List.map_cons, List.map_nil]
  rw [Option.bind_eq_bind, Option.bind_some]
  dsimp only
  rw [hid, hgroup, hitem, hamount, henabled, hkind, hquickSynth, hsuborder, hhq, hfood, hprimary,
    hmanual, hmedicine]
  show (Json.ofNat o.item.toNat).word32?.bind (fun item =>
    (Json.ofNat o.amount.toNat).word32?.bind fun amount => some { o with item, amount }) = some o
  rw [Json.word32?_ofNat, Json.word32?_ofNat]
  rfl

end IsForm
end Order

/-! ### Batches -/

namespace Batch

variable {s : String} {v : Json} {n : Nat} {batch : Batch}

/-- What a text is read as, if it is read as a value that gives orders. -/
theorem read_eq_ok (hs : Json.read? s = some v) (hv : v.Sound n) (hn : n ≤ depthLimit)
    (hbatch : ofJson? v = some batch) : read s = .ok batch := by
  have hread : read? s = some batch := by
    simp only [read?, hs, Option.bind_eq_bind, Option.bind_some]
    rw [if_pos ⟨hv.depth.trans hn, hv.finite⟩, hbatch]
  rw [read, hread]

theorem ofJson?_toJson (batch : Batch) : ofJson? batch.toJson = some batch := by
  have hitems : (batch.map Order.toJson).mapM Order.ofJson? = some batch := by
    induction batch with
    | nil => rfl
    | cons o batch ih =>
      rw [List.map_cons, List.mapM_cons, ih, Order.toJson_eq, o.isForm_fields.ofJson?]
      rfl
  exact hitems

theorem read_text (batch : Batch) : read (text batch) = .ok batch := by
  have hsound : batch.toJson.Sound 2 := by
    refine Json.sound_array fun v hv => ?_
    obtain ⟨o, -, rfl⟩ := List.mem_map.1 hv
    exact o.isForm_fields.sound
  exact read_eq_ok (Json.read?_render hsound.spelled) hsound (by decide) (ofJson?_toJson batch)

/-- **Orders are read back.** A batch is read from its text as it is; and an order is read from its
own object, with its fields in any order and any of those left out that have their defaults, whether
the text of the object is the one it is written with or any other. -/
theorem orders_read_back :
    (∀ batch : Batch, read (text batch) = .ok batch) ∧
    ∀ (o : Order) fs, o.IsForm fs → read (Json.render (.object fs)) = .ok [o] ∧
      ∀ s, Json.read? s = some (.object fs) → read s = .ok [o] := by
  refine ⟨read_text, fun o fs h => ?_⟩
  have hread : ∀ s, Json.read? s = some (.object fs) → read s = .ok [o] := fun s hs =>
    read_eq_ok hs h.sound (by decide) (congrArg (Option.map ([·])) h.ofJson?)
  exact ⟨hread _ (Json.read?_render h.sound.spelled), hread⟩

/-- An object with four of the fields, the last ones first, and a kind that is nothing but quotes,
backslashes and control characters. -/
theorem orders_read_back_of_object :
    let kind := "\"\\\n\x01\""
    let o : Order := { item := 5, amount := 2, kind, hq := true }
    let fs : List (String × Json) :=
      [("Hq", .bool true), ("Type", .string kind), ("Amount", .ofNat 2), ("Item", .ofNat 5)]
    o.IsForm fs ∧ read (Json.render (.object fs)) = .ok [o] := by
  intro kind o fs
  have hform : o.IsForm fs := by
    refine ⟨⟨o.fields.filter (·.1 ∈ ["Item", "Amount", "Type", "Hq"]), ?_, List.filter_sublist⟩, ?_⟩
    · exact (List.reverse_perm _).symm
    · simp [fs, o, Order.fields, Order.fieldNames, Order.defaults, Order.blank]
  exact ⟨hform, (orders_read_back.2 o fs hform).1⟩

end Batch
end Progression
