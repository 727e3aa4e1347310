import Mathlib.Data.List.Find
import Progression.Proofs.Markup.EntityGraph

/-!
Expansion of entities, pass by pass. A pass replaces references to declared entities by their
values everywhere at once; where no entity reaches itself, it lowers the depth of a text by one, so
that as many passes as a text is deep expand it as its values expand one by one (`Expands`).
-/

namespace Progression.Markup

open Progression.Text Relation

/-- A text in which every `&` begins a reference or stands before `#`. -/
inductive Clean : List Char → Prop
  | nil : Clean []
  | char {c : Char} {s : List Char} : c ≠ '&' → Clean s → Clean (c :: s)
  | number {s : List Char} : Clean s → Clean ('&' :: '#' :: s)
  | reference {name s : List Char} : IsEntityName name → Clean s →
    Clean ('&' :: (name ++ ';' :: s))

/-- The text with every reference replaced by the value of its name, expanded in turn. References to
names that are not declared stay. -/
inductive Expands (entities : List Entity) : List Char → List Char → Prop
  | nil : Expands entities [] []
  | char {c : Char} {s t : List Char} : c ≠ '&' → Expands entities s t →
    Expands entities (c :: s) (c :: t)
  | number {s t : List Char} : Expands entities s t →
    Expands entities ('&' :: '#' :: s) ('&' :: '#' :: t)
  | declared {name value expanded s t : List Char} : IsEntityName name →
    entities.lookup name = some value → Expands entities value expanded → Expands entities s t →
    Expands entities ('&' :: (name ++ ';' :: s)) (expanded ++ t)
  | undeclared {name s t : List Char} : IsEntityName name → entities.lookup name = none →
    Expands entities s t → Expands entities ('&' :: (name ++ ';' :: s)) ('&' :: (name ++ ';' :: t))

/-- A name that is declared or built in. -/
def isKnown (entities : List Entity) (name : List Char) : Bool :=
  (entities.lookup name).isSome || isBuiltin name

variable {entities : List Entity} {s t n : List Char}

/-! ### One pass -/

theorem reference?_number (s : List Char) : reference? ('#' :: s) = none := (rfl)

theorem references_number (s : List Char) : references ('&' :: '#' :: s) = references s := by
  rw [references_amp (reference?_number s), references_cons (by decide)]

theorem substitute_cons {c : Char} (h : c ≠ '&') (s : List Char) :
    substitute entities (c :: s) = c :: substitute entities s := by
  rw [substitute, if_neg h]

theorem substitute_number (s : List Char) :
    substitute entities ('&' :: '#' :: s) = '&' :: '#' :: substitute entities s := by
  rw [substitute, if_pos rfl]
  split
  · next h => cases (reference?_number s).symm.trans h
  · rw [substitute_cons (by decide)]

theorem substitute_reference {name : List Char} (h : IsEntityName name) (s : List Char) :
    substitute entities ('&' :: (name ++ ';' :: s)) =
      (entities.lookup name).getD ('&' :: (name ++ [';'])) ++ substitute entities s := by
  rw [substitute, if_pos rfl]
  split
  · next h' =>
    cases (reference?_append h s).symm.trans h'
    cases entities.lookup name <;> rfl
  · next h' => cases (reference?_append h s).symm.trans h'

namespace Clean

theorem append (h : Clean s) (h' : Clean t) : Clean (s ++ t) := by
  induction h with
  | nil => exact h'
  | char hc _ ih => exact .char hc ih
  | number _ ih => exact .number ih
  | @reference name s hn _ ih =>
    have := Clean.reference hn ih
    simpa using this

theorem plain (h : '&' ∉ s) (h' : Clean t) : Clean (s ++ t) := by
  induction s with
  | nil => exact h'
  | cons c s ih =>
    obtain ⟨hc, hs⟩ := List.ne_and_not_mem_of_not_mem_cons h
    exact .char (Ne.symm hc) (ih hs)

theorem single {name : List Char} (h : IsEntityName name) : Clean ('&' :: (name ++ [';'])) :=
  .reference h .nil

theorem references_append (h : Clean s) (t : List Char) :
    references (s ++ t) = references s ++ references t := by
  induction h with
  | nil => rfl
  | char hc _ ih => rw [List.cons_append, references_cons hc, references_cons hc, ih]
  | number _ ih => rw [List.cons_append, List.cons_append, references_number, references_number, ih]
  | @reference name s hn _ ih =>
    have hassoc : '&' :: (name ++ ';' :: s) ++ t = '&' :: (name ++ ';' :: (s ++ t)) := by simp
    rw [hassoc, references_reference hn, references_reference hn, ih, List.cons_append]

theorem substitute_append (h : Clean s) (t : List Char) :
    substitute entities (s ++ t) = substitute entities s ++ substitute entities t := by
  induction h with
  | nil => simp [substitute]
  | char hc _ ih =>
    rw [List.cons_append, substitute_cons hc, substitute_cons hc, ih, List.cons_append]
  | number _ ih =>
    rw [List.cons_append, List.cons_append, substitute_number, substitute_number, ih]
    rfl
  | @reference name s hn _ ih =>
    have hassoc : '&' :: (name ++ ';' :: s) ++ t = '&' :: (name ++ ';' :: (s ++ t)) := by simp
    rw [hassoc, substitute_reference hn, substitute_reference hn, ih, List.append_assoc]

end Clean

/-- In the place of a reference stand the references of the value, or it stands there itself. -/
theorem mem_references_replacement {name : List Char} (hn : IsEntityName name) :
    n ∈ references ((entities.lookup name).getD ('&' :: (name ++ [';']))) ↔
      (n = name ∧ entities.lookup n = none) ∨ RefersTo entities name n := by
  cases hl : entities.lookup name with
  | none =>
    have hno : ¬ RefersTo entities name n := by
      rintro ⟨value, hl', -⟩
      cases hl.symm.trans hl'
    rw [Option.getD_none, references_reference hn, or_iff_left hno]
    constructor
    · intro hm
      cases List.mem_singleton.1 hm
      exact ⟨rfl, hl⟩
    · rintro ⟨rfl, -⟩
      exact List.mem_cons_self
  | some value =>
    rw [Option.getD_some]
    constructor
    · exact fun hm => .inr ⟨value, hl, hm⟩
    · rintro (⟨rfl, hl'⟩ | ⟨value', hl', hm⟩)
      · cases hl.symm.trans hl'
      · cases hl.symm.trans hl'
        exact hm

section Values

variable (hv : ∀ e ∈ entities, Clean e.2)

include hv

theorem clean_of_lookup {value : List Char} (h : entities.lookup n = some value) : Clean value :=
  hv _ (mem_of_lookup h)

theorem clean_replacement {name : List Char} (hn : IsEntityName name) :
    Clean ((entities.lookup name).getD ('&' :: (name ++ [';']))) := by
  cases hl : entities.lookup name with
  | none => exact .single hn
  | some value => exact clean_of_lookup hv hl

/-- What is replaced is replaced by a clean text. -/
theorem Clean.substitute (h : Clean s) : Clean (substitute entities s) := by
  induction h with
  | nil => simpa [Markup.substitute] using Clean.nil
  | char hc _ ih => rw [substitute_cons hc]; exact .char hc ih
  | number _ ih => rw [substitute_number]; exact .number ih
  | reference hn _ ih => rw [substitute_reference hn]; exact (clean_replacement hv hn).append ih

/-- A pass keeps the references to undeclared names and replaces the others by the references in
their values. -/
theorem mem_references_substitute (h : Clean s) :
    n ∈ references (Markup.substitute entities s) ↔
      (n ∈ references s ∧ entities.lookup n = none) ∨
        ∃ m ∈ references s, RefersTo entities m n := by
  induction h with
  | nil => simp [Markup.substitute, references]
  | char hc _ ih => rw [substitute_cons hc, references_cons hc, references_cons hc, ih]
  | number _ ih => rw [substitute_number, references_number, references_number, ih]
  | reference hn _ ih =>
    rw [substitute_reference hn, (clean_replacement hv hn).references_append, List.mem_append,
      mem_references_replacement hn, ih, references_reference hn]
    simp only [List.mem_cons, exists_eq_or_imp]
    rw [or_and_right]
    exact or_or_or_comm

/-- A pass lowers the depth of a text by one. -/
theorem depth_substitute_le_iff (ha : Acyclic entities) (h : Clean s) {k : Nat} :
    (∀ m ∈ references (Markup.substitute entities s), depth entities m ≤ k) ↔
      ∀ m ∈ references s, depth entities m ≤ k + 1 := by
  constructor
  · intro hd m hm
    cases hl : entities.lookup m with
    | none => rw [depth_of_none hl]; omega
    | some value =>
      have hle : greatest (depth entities) (references value) ≤ k := by
        refine greatest_le_iff.2 fun m' hm' => hd m' ?_
        exact (mem_references_substitute hv h).2 (.inr ⟨m, hm, value, hl, hm'⟩)
      rw [depth_eq ha hl]
      omega
  · intro hd m hm
    rcases (mem_references_substitute hv h).1 hm with ⟨-, hl⟩ | ⟨m', hm', value, hl, hmem⟩
    · rw [depth_of_none hl]; omega
    · have hle := hd m' hm'
      have := greatest_le_iff.1 (Nat.le_refl (greatest (depth entities) _)) m hmem
      rw [depth_eq ha hl] at hle
      omega

end Values

/-! ### Names that are reached -/

theorem lookup_of_depth (h : depth entities n = 0) : entities.lookup n = none := by
  cases hl : entities.lookup n with
  | none => rfl
  | some value =>
    have := depth_pos hl
    omega

/-- The names that are reached from the values are reached from the text. -/
theorem Reachable.of_substitute (hv : ∀ e ∈ entities, Clean e.2) (h : Clean s)
    (hr : Reachable entities (substitute entities s) n) : Reachable entities s n := by
  obtain ⟨m, hm, hreach⟩ := hr
  rcases (mem_references_substitute hv h).1 hm with ⟨hm, -⟩ | ⟨m', hm', href⟩
  · exact ⟨m, hm, hreach⟩
  · exact ⟨m', hm', .head href hreach⟩

/-- A pass loses no undeclared name. -/
theorem Reachable.substitute (hv : ∀ e ∈ entities, Clean e.2) (h : Clean s)
    (hr : Reachable entities s n) (hn : entities.lookup n = none) :
    Reachable entities (substitute entities s) n := by
  obtain ⟨m, hm, hreach⟩ := hr
  rcases hreach.cases_head with rfl | ⟨m', href, hreach⟩
  · exact ⟨m, (mem_references_substitute hv h).2 (.inl ⟨hm, hn⟩), .refl⟩
  · exact ⟨m', (mem_references_substitute hv h).2 (.inr ⟨m, hm, href⟩), hreach⟩

/-- Every name that is reached is known where those in the text and in the values are. -/
theorem isKnown_of_reachable (hs : ∀ n ∈ references s, isKnown entities n = true)
    (hv : ∀ e ∈ entities, ∀ n ∈ references e.2, isKnown entities n = true)
    (hr : Reachable entities s n) : isKnown entities n = true := by
  obtain ⟨m, hm, hreach⟩ := hr
  rcases hreach.cases_tail with rfl | ⟨m', -, value, hl, hn⟩
  · exact hs n hm
  · exact hv _ (mem_of_lookup hl) n hn

/-! ### Passes -/

/-- A text after a number of passes. -/
def passes (entities : List Entity) : Nat → List Char → List Char
  | 0, s => s
  | k + 1, s => passes entities k (substitute entities s)

theorem passes_of_fixed (h : substitute entities s = s) (k : Nat) : passes entities k s = s := by
  induction k with
  | zero => rfl
  | succ k ih => rw [passes, h, ih]

/-- Passes that stop when nothing changes end where all passes do. -/
theorem settle_fst (k : Nat) (s : List Char) :
    (settle entities k s).1 = passes entities k s := by
  induction k generalizing s with
  | zero => rfl
  | succ k ih =>
    rw [settle]
    split
    · next h => exact (passes_of_fixed h (k + 1)).symm
    · exact ih _

theorem substitute_of_settle_snd {k : Nat} {s : List Char}
    (h : (settle entities k s).2 = true) :
    substitute entities (settle entities k s).1 = (settle entities k s).1 := by
  induction k generalizing s with
  | zero => cases h
  | succ k ih =>
    rw [settle] at h ⊢
    split
    · next heq => exact heq
    · next hne =>
      rw [if_neg hne] at h
      exact ih h

section Values

variable (hv : ∀ e ∈ entities, Clean e.2)

include hv

theorem Clean.passes (h : Clean s) (k : Nat) : Clean (passes entities k s) := by
  induction k generalizing s with
  | zero => exact h
  | succ k ih => exact ih (h.substitute hv)

theorem Clean.passes_append (h : Clean s) (k : Nat) (t : List Char) :
    Markup.passes entities k (s ++ t) =
      Markup.passes entities k s ++ Markup.passes entities k t := by
  induction k generalizing s t with
  | zero => rfl
  | succ k ih => rw [Markup.passes, h.substitute_append, ih (h.substitute hv)]; rfl

/-- A part that no pass changes stays in front. -/
theorem passes_fixed_append (h : Clean s) (hs : substitute entities s = s) (k : Nat)
    (t : List Char) : passes entities k (s ++ t) = s ++ passes entities k t := by
  rw [h.passes_append hv, passes_of_fixed hs]

theorem passes_cons {c : Char} (h : c ≠ '&') (k : Nat) (s : List Char) :
    passes entities k (c :: s) = c :: passes entities k s :=
  passes_fixed_append hv (.char h .nil) (by rw [substitute_cons h]; simp [substitute]) k s

theorem passes_number (k : Nat) (s : List Char) :
    passes entities k ('&' :: '#' :: s) = '&' :: '#' :: passes entities k s :=
  passes_fixed_append hv (.number .nil) (by rw [substitute_number]; simp [substitute]) k s

theorem passes_undeclared {name : List Char} (hn : IsEntityName name)
    (hl : entities.lookup name = none) (k : Nat) (s : List Char) :
    passes entities k ('&' :: (name ++ ';' :: s)) = '&' :: (name ++ ';' :: passes entities k s) := by
  have hfix : substitute entities ('&' :: (name ++ [';'])) = '&' :: (name ++ [';']) := by
    rw [substitute_reference hn, hl]
    simp [substitute]
  have := passes_fixed_append hv (.single hn) hfix k s
  simpa using this

theorem passes_declared {name value : List Char} (hn : IsEntityName name)
    (hl : entities.lookup name = some value) (k : Nat) (s : List Char) :
    passes entities (k + 1) ('&' :: (name ++ ';' :: s)) =
      passes entities k value ++ passes entities (k + 1) s := by
  rw [passes, substitute_reference hn, hl, Option.getD_some,
    (clean_of_lookup hv hl).passes_append hv]
  rfl

theorem Reachable.of_passes (h : Clean s) {k : Nat}
    (hr : Reachable entities (Markup.passes entities k s) n) : Reachable entities s n := by
  induction k generalizing s with
  | zero => exact hr
  | succ k ih => exact (ih (h.substitute hv) hr).of_substitute hv h

theorem Reachable.passes (h : Clean s) {k : Nat} (hr : Reachable entities s n)
    (hn : entities.lookup n = none) : Reachable entities (Markup.passes entities k s) n := by
  induction k generalizing s with
  | zero => exact hr
  | succ k ih => exact ih (h.substitute hv) (hr.substitute hv h hn)

variable (ha : Acyclic entities)

include ha

theorem depth_passes_le_iff (h : Clean s) (k j : Nat) :
    (∀ m ∈ references (passes entities k s), depth entities m ≤ j) ↔
      ∀ m ∈ references s, depth entities m ≤ k + j := by
  induction k generalizing s with
  | zero => rw [passes, Nat.zero_add]
  | succ k ih =>
    rw [passes, ih (h.substitute hv), depth_substitute_le_iff hv ha h]
    have hassoc : k + j + 1 = k + 1 + j := by omega
    rw [hassoc]

/-- A text that a pass does not change refers to no declared entity. -/
theorem depth_of_fixed (h : Clean s) (hs : substitute entities s = s) :
    ∀ m ∈ references s, depth entities m = 0 := by
  have hall := (depth_passes_le_iff hv ha h (entities.length + 1) 0).2 fun m _ => depth_le m
  rw [passes_of_fixed hs] at hall
  exact fun m hm => Nat.le_zero.1 (hall m hm)

/-- No declared name is left where the text is no deeper than there are passes. -/
theorem lookup_passes (h : Clean s) {k : Nat} (hd : ∀ m ∈ references s, depth entities m ≤ k) :
    ∀ m ∈ references (passes entities k s), entities.lookup m = none := by
  intro m hm
  have hall := (depth_passes_le_iff hv ha h k 0).2 hd
  exact lookup_of_depth (Nat.le_zero.1 (hall m hm))

/-- A declared name is left where the text is deeper. -/
theorem exists_lookup_passes (h : Clean s) {k : Nat}
    (hdeep : ∃ m ∈ references s, k < depth entities m) :
    ∃ m ∈ references (passes entities k s), ∃ value, entities.lookup m = some value := by
  by_contra hne
  have hnone : ∀ m ∈ references (passes entities k s), depth entities m ≤ 0 := by
    intro m hm
    cases hl : entities.lookup m with
    | none => exact (depth_of_none hl).le
    | some value => exact absurd ⟨m, hm, value, hl⟩ hne
  obtain ⟨m, hm, hlt⟩ := hdeep
  have := (depth_passes_le_iff hv ha h k 0).1 hnone m hm
  omega

/-- While declared names are left, the passes do not settle. -/
theorem settle_snd_eq_false (h : Clean s) {k : Nat} {m value : List Char}
    (hm : m ∈ references (passes entities k s)) (hl : entities.lookup m = some value) :
    (settle entities k s).2 = false := by
  rw [← Bool.not_eq_true]
  intro hsettled
  have hfix := substitute_of_settle_snd hsettled
  rw [settle_fst] at hfix
  have := depth_of_fixed hv ha (h.passes hv k) hfix m hm
  have := depth_pos hl
  omega

/-- As many passes as a text is deep expand it. -/
theorem expands_passes (h : Clean s) {k : Nat} (hd : ∀ m ∈ references s, depth entities m ≤ k) :
    Expands entities s (passes entities k s) := by
  induction k using Nat.strong_induction_on generalizing s with
  | _ k ihk =>
    induction h with
    | nil =>
      rw [passes_of_fixed (by simp [substitute])]
      exact .nil
    | char hc _ ih =>
      rw [references_cons hc] at hd
      rw [passes_cons hv hc]
      exact .char hc (ih hd)
    | number _ ih =>
      rw [references_number] at hd
      rw [passes_number hv]
      exact .number (ih hd)
    | @reference name s hn _ ih =>
      rw [references_reference hn] at hd
      obtain ⟨hname, hd⟩ := List.forall_mem_cons.1 hd
      cases hl : entities.lookup name with
      | none =>
        rw [passes_undeclared hv hn hl]
        exact .undeclared hn hl (ih hd)
      | some value =>
        rw [depth_eq ha hl] at hname
        -- The value is less deep than its name, so it is done one pass earlier.
        obtain ⟨j, rfl⟩ : ∃ j, k = j + 1 := ⟨k - 1, by omega⟩
        have hvalue : ∀ m ∈ references value, depth entities m ≤ j :=
          greatest_le_iff.1 (by omega)
        have hexp := ihk j (by omega) (clean_of_lookup hv hl) hvalue
        rw [passes_declared hv hn hl]
        exact .declared hn hl hexp (ih hd)

end Values

/-- A name that is reached from a text without declared names stands in it. -/
theorem Reachable.mem_references (hd : ∀ m ∈ references s, entities.lookup m = none)
    (hr : Reachable entities s n) : n ∈ references s := by
  obtain ⟨m, hm, hreach⟩ := hr
  rcases hreach.cases_head with rfl | ⟨m', ⟨value, hl, -⟩, -⟩
  · exact hm
  · rw [hd m hm] at hl
    cases hl

theorem references_of_some {c : Char} {cs name rest : List Char}
    (h : (if c = '&' then reference? cs else none) = some (name, rest)) :
    references (c :: cs) = name :: references rest := by
  split at h
  · next hc =>
    obtain ⟨hn, rfl⟩ := eq_of_reference? h
    rw [hc, references_reference hn]
  · cases h

theorem references_of_none {c : Char} {cs : List Char}
    (h : (if c = '&' then reference? cs else none) = none) :
    references (c :: cs) = references cs := by
  rw [references, h]

/-- The reference that is reported is the first that is not built in. -/
theorem firstReference?_map_snd (s : List Char) :
    (firstReference? s).map Prod.snd = (references s).find? fun n => !isBuiltin n := by
  induction s using firstReference?.induct with
  | case1 => simp [firstReference?, references]
  | case2 c cs name rest h hbuiltin ih =>
    rw [references_of_some h, List.find?_cons_of_neg (by simp [hbuiltin]), ← ih, firstReference?]
    split
    · next h' =>
      cases h.symm.trans h'
      simp [hbuiltin, Function.comp_def]
    · next h' => cases h.symm.trans h'
  | case3 c cs name rest h hbuiltin =>
    rw [references_of_some h, List.find?_cons_of_pos (by simp [hbuiltin]), firstReference?]
    split
    · next h' =>
      cases h.symm.trans h'
      simp [hbuiltin]
    · next h' => cases h.symm.trans h'
  | case4 c cs h ih =>
    rw [references_of_none h, ← ih, firstReference?]
    split
    · next h' => cases h.symm.trans h'
    · simp [Function.comp_def]

/-! ### Whole texts -/

theorem expand_eq {source : String} {body text : List Char}
    (hs : stripBlock source text = .ok (body, entities)) :
    expand source text =
      match firstReference? (passes entities passLimit body) with
      | none => .ok (passes entities passLimit body)
      | some (before, name) =>
        if !(settle entities passLimit body).2 && (entities.lookup name).isSome then
          .error (.parse source (lineAfter before)
            ("entity '" ++ String.ofList name ++ "' expands recursively"))
        else .error (.undefinedEntity (String.ofList name)) := by
  unfold expand
  rw [hs, ← settle_fst]
  rfl

theorem reference_inj {name name' : List Char} (hn : IsEntityName name)
    (hn' : IsEntityName name') (h : name ++ ';' :: s = name' ++ ';' :: t) :
    name = name' ∧ s = t := by
  have := reference?_append hn s
  rw [h, reference?_append hn'] at this
  cases this
  exact ⟨rfl, rfl⟩

theorem reference_ne_number {name : List Char} (hn : IsEntityName name) :
    name ++ ';' :: s ≠ '#' :: t := by
  intro h
  have := reference?_append hn s
  rw [h, reference?_number] at this
  cases this

/-- A text has one expansion. -/
theorem Expands.unique (h : Expands entities s t) {t' : List Char}
    (h' : Expands entities s t') : t = t' := by
  induction h generalizing t' with
  | nil => cases h'; rfl
  | char hc _ ih =>
    cases h' with
    | char _ h' => rw [ih h']
    | number => exact absurd rfl hc
    | declared => exact absurd rfl hc
    | undeclared => exact absurd rfl hc
  | @number s t _ ih =>
    generalize hu : '&' :: '#' :: s = u at h'
    cases h' with
    | nil => cases hu
    | char hc => cases hu; exact absurd rfl hc
    | number h' => cases hu; rw [ih h']
    | declared hn => exact absurd (List.cons.inj hu).2.symm (reference_ne_number hn)
    | undeclared hn => exact absurd (List.cons.inj hu).2.symm (reference_ne_number hn)
  | @declared name value expanded s t hn hl _ _ ihv ih =>
    generalize hu : '&' :: (name ++ ';' :: s) = u at h'
    cases h' with
    | nil => cases hu
    | char hc => cases hu; exact absurd rfl hc
    | number => exact absurd (List.cons.inj hu).2 (reference_ne_number hn)
    | declared hn' hl' hv' h' =>
      obtain ⟨rfl, rfl⟩ := reference_inj hn hn' (List.cons.inj hu).2
      cases hl.symm.trans hl'
      rw [ihv hv', ih h']
    | undeclared hn' hl' =>
      obtain ⟨rfl, -⟩ := reference_inj hn hn' (List.cons.inj hu).2
      cases hl.symm.trans hl'
  | @undeclared name s t hn hl _ ih =>
    generalize hu : '&' :: (name ++ ';' :: s) = u at h'
    cases h' with
    | nil => cases hu
    | char hc => cases hu; exact absurd rfl hc
    | number => exact absurd (List.cons.inj hu).2 (reference_ne_number hn)
    | declared hn' hl' =>
      obtain ⟨rfl, -⟩ := reference_inj hn hn' (List.cons.inj hu).2
      cases hl.symm.trans hl'
    | undeclared hn' hl' h' =>
      obtain ⟨rfl, rfl⟩ := reference_inj hn hn' (List.cons.inj hu).2
      rw [ih h']

/-- Of the references to undeclared names, the first that is not built in is the first that is not
known. -/
theorem find?_isKnown (hd : ∀ m ∈ references s, entities.lookup m = none) :
    ((references s).find? fun n => !isKnown entities n) =
      (references s).find? fun n => !isBuiltin n := by
  refine List.find?_congr fun m hm => ?_
  rw [isKnown, hd m hm]
  rfl

theorem firstReference?_eq_none_iff :
    firstReference? s = none ↔ ∀ n ∈ references s, isBuiltin n = true := by
  rw [← Option.map_eq_none_iff (f := Prod.snd), firstReference?_map_snd, List.find?_eq_none]
  simp

/-- Where a reference is left that is not built in, the first one is found. -/
theorem exists_firstReference? (hm : n ∈ references s) (hn : isBuiltin n = false) :
    ∃ before name, firstReference? s = some (before, name) ∧
      ((references s).find? fun n => !isBuiltin n) = some name := by
  have hsome : ((references s).find? fun n => !isBuiltin n).isSome = true :=
    List.find?_isSome.2 ⟨n, hm, by simp [hn]⟩
  obtain ⟨name, hname⟩ := Option.isSome_iff_exists.1 hsome
  have hfirst := hname
  rw [← firstReference?_map_snd, Option.map_eq_some_iff] at hfirst
  obtain ⟨⟨before, _⟩, hf, rfl⟩ := hfirst
  exact ⟨before, _, hf, hname⟩

section Declared

variable {source : String} {body text : List Char} (h : Declares entities body text)
  (hb : Clean body) (hv : ∀ e ∈ entities, Clean e.2) (ha : Acyclic entities)

include h hb hv ha

/-- A text of known names that is not too deep is expanded. -/
theorem expand_of_known (hd : ∀ n ∈ references body, depth entities n ≤ passLimit)
    (hknown : ∀ n, Reachable entities body n → isKnown entities n = true) :
    ∃ out, Expands entities body out ∧ expand source text = .ok out := by
  have hlookup := lookup_passes hv ha hb hd
  refine ⟨passes entities passLimit body, expands_passes hv ha hb hd, ?_⟩
  have hnone : firstReference? (passes entities passLimit body) = none := by
    refine firstReference?_eq_none_iff.2 fun n hn => ?_
    have hk := hknown n (Reachable.of_passes hv hb ⟨n, hn, .refl⟩)
    rwa [isKnown, hlookup n hn] at hk
  rw [expand_eq (h.stripBlock source), hnone]

/-- The first unknown name of a text that is not too deep is reported. -/
theorem expand_of_unknown (hd : ∀ n ∈ references body, depth entities n ≤ passLimit)
    (hreach : Reachable entities body n) (hn : isKnown entities n = false) :
    ∃ out name, Expands entities body out ∧
      ((references out).find? fun n => !isKnown entities n) = some name ∧
      expand source text = .error (.undefinedEntity (String.ofList name)) := by
  have hlookup := lookup_passes hv ha hb hd
  simp only [isKnown, Bool.or_eq_false_iff, Option.isSome_eq_false_iff,
    Option.isNone_iff_eq_none] at hn
  have hmem := (hreach.passes hv hb (k := passLimit) hn.1).mem_references hlookup
  obtain ⟨before, name, hf, hname⟩ := exists_firstReference? hmem hn.2
  have hnone := hlookup name (List.mem_of_find?_eq_some hname)
  refine ⟨_, name, expands_passes hv ha hb hd, (find?_isKnown hlookup).trans hname, ?_⟩
  rw [expand_eq (h.stripBlock source), hf]
  simp [hnone]

/-- A text of known names that is too deep is reported as recursive. -/
theorem expand_of_deep (hbuiltin : ∀ e ∈ entities, isBuiltin e.1 = false)
    (hdeep : ∃ n ∈ references body, passLimit < depth entities n)
    (hknown : ∀ n, Reachable entities body n → isKnown entities n = true) :
    ∃ line name, (entities.lookup name).isSome = true ∧
      expand source text = .error (.parse source line
        ("entity '" ++ String.ofList name ++ "' expands recursively")) := by
  obtain ⟨m, hm, value, hl⟩ := exists_lookup_passes hv ha hb hdeep
  obtain ⟨before, name, hf, hname⟩ := exists_firstReference? hm (hbuiltin _ (mem_of_lookup hl))
  have hk := hknown name
    (Reachable.of_passes hv hb ⟨name, List.mem_of_find?_eq_some hname, .refl⟩)
  have hn : isBuiltin name = false := by simpa using List.find?_some hname
  have hdecl : (entities.lookup name).isSome = true := by simpa [isKnown, hn] using hk
  refine ⟨lineAfter before, name, hdecl, ?_⟩
  rw [expand_eq (h.stripBlock source), hf, settle_snd_eq_false hv ha hb hm hl]
  simp only [hdecl, Bool.not_false, Bool.and_self, if_true]

end Declared

/-- Expansion is recursive substitution up to the limit of passes: a text that is not too deep is
expanded, or its first unknown name is reported; one that is deeper is reported as recursive. -/
theorem expand_of_declares {body text : List Char} (source : String)
    (h : Declares entities body text) (hb : Clean body) (hv : ∀ e ∈ entities, Clean e.2)
    (hbuiltin : ∀ e ∈ entities, isBuiltin e.1 = false) (ha : Acyclic entities) :
    ((∀ n ∈ references body, depth entities n ≤ passLimit) →
      ((∀ n, Reachable entities body n → isKnown entities n = true) →
        ∃ out, Expands entities body out ∧ expand source text = .ok out) ∧
      ((∃ n, Reachable entities body n ∧ isKnown entities n = false) →
        ∃ out name, Expands entities body out ∧
          ((references out).find? fun n => !isKnown entities n) = some name ∧
          expand source text = .error (.undefinedEntity (String.ofList name)))) ∧
    ((∃ n ∈ references body, passLimit < depth entities n) →
      (∀ n, Reachable entities body n → isKnown entities n = true) →
      ∃ line name, (entities.lookup name).isSome = true ∧
        expand source text = .error (.parse source line
          ("entity '" ++ String.ofList name ++ "' expands recursively"))) := by
  refine ⟨fun hd => ⟨fun hknown => ?_, ?_⟩, fun hdeep hknown => ?_⟩
  · exact expand_of_known h hb hv ha hd hknown
  · rintro ⟨n, hreach, hn⟩
    exact expand_of_unknown h hb hv ha hd hreach hn
  · exact expand_of_deep h hb hv ha hbuiltin hdeep hknown

theorem expand_of_declares_nested :
    ∃ out,
      Expands [("a".toList, "&b;-&b;".toList), ("b".toList, "x".toList)]
        "<P v=\"&a;&lt;\"/>".toList out ∧
      expand "test"
        "<!DOCTYPE P [<!ENTITY a \"&b;-&b;\"> <!ENTITY b 'x'>]><P v=\"&a;&lt;\"/>".toList =
          .ok out := by
  have ha : IsEntityName "a".toList := ⟨'a', [], rfl, by decide, by simp⟩
  have hb : IsEntityName "b".toList := ⟨'b', [], rfl, by decide, by simp⟩
  have hlt : IsEntityName "lt".toList := ⟨'l', ['t'], rfl, by decide, by decide⟩
  have hvalue : Clean "&b;-&b;".toList :=
    .reference hb (.char (by decide) (.reference hb .nil))
  have hx : Clean "x".toList := .char (by decide) .nil
  have hbody : Clean "<P v=\"&a;&lt;\"/>".toList :=
    .plain (s := "<P v=\"".toList) (by decide)
      (.reference ha (.reference hlt (.plain (s := "\"/>".toList) (by decide) .nil)))
  have hpad : Pad " ".toList := by unfold Pad; decide
  have hda : DeclarationText ("a".toList, "&b;-&b;".toList) "<!ENTITY a \"&b;-&b;\">".toList :=
    .mk ha hpad (by decide) hpad (by decide) (.inl rfl) (by decide) .nil
  have hdb : DeclarationText ("b".toList, "x".toList) "<!ENTITY b 'x'>".toList :=
    .mk hb hpad (by decide) hpad (by decide) (.inr rfl) (by decide) .nil
  have hsubset := SubsetText.declaration hda (.blank (c := ' ') (by decide) (.declaration hdb .nil))
  have hhead : HeadingText " P ".toList :=
    .char (by decide) (.char (by decide) (.char (by decide) .nil))
  have hblock := BlockText.subset (w := "<!DOCTYPE".toList) (beq_self_eq_true _) hhead
    (by decide) hsubset .nil
  have h : Declares [("a".toList, "&b;-&b;".toList), ("b".toList, "x".toList)]
      "<P v=\"&a;&lt;\"/>".toList
      "<!DOCTYPE P [<!ENTITY a \"&b;-&b;\"> <!ENTITY b 'x'>]><P v=\"&a;&lt;\"/>".toList :=
    .block .nil hblock
  refine ((expand_of_declares "test" h hbody ?_ ?_ ?_).1 ?_).1 ?_
  · simpa using ⟨hvalue, hx⟩
  · decide +kernel
  · exact acyclic_of_depth (by decide +kernel)
  · decide +kernel
  · exact fun n => isKnown_of_reachable (by decide +kernel) (by decide +kernel)

/-- What looks like a declaration counts in a quoted text of the heading too: the block declares
nothing between its brackets, and yet the reference is replaced. -/
theorem expand_quoted_declaration :
    expand "test" "<!DOCTYPE P SYSTEM \"<!ENTITY a 'x'>\" []><P v=\"&a;\"/>".toList =
      .ok "<P v=\"x\"/>".toList := by
  decide +kernel

-- What opens a block in a comment hides the block behind it.
example :
    expand "test"
      "<!-- <!DOCTYPE P> -->\n<!DOCTYPE P [<!ENTITY a \"x\">]>\n<P v=\"&a;\"/>".toList =
        .error (.undefinedEntity "a") := by
  decide +kernel

end Progression.Markup
