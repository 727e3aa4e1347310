import Mathlib.Data.List.Chain
import Mathlib.Data.List.Perm.Subperm
import Mathlib.Logic.Relation
import Progression.Proofs.Markup.Doctype

/-!
The graph of the declared entities: an entity refers to the names in its value. Where no entity
reaches itself, every name has a depth, one more than the greatest depth of the names its value
refers to (`depth_eq`).
-/

namespace Progression.Markup

open Progression.Text Relation

/-! ### References in a text -/

/-- The names in the references of a text, in their order. -/
def references : List Char → List (List Char)
  | [] => []
  | c :: cs =>
    match if c = '&' then reference? cs else none with
    | some (name, _) => name :: references cs
    | none => references cs

theorem reference?_append {name : List Char} (h : IsEntityName name) (s : List Char) :
    reference? (name ++ ';' :: s) = some (name, s) := by
  have hname := entityName?_append h (r := ';' :: s) (by rintro _ ⟨⟩; rfl)
  unfold reference?
  rw [hname]
  rfl

theorem eq_of_entityName? {s name r : List Char} (h : entityName? s = some (name, r)) :
    IsEntityName name ∧ s = name ++ r := by
  cases s with
  | nil => cases h
  | cons c cs =>
    rw [entityName?] at h
    split at h
    · next hc =>
      cases h
      refine ⟨⟨c, _, rfl, hc, fun _ hd => List.mem_takeWhile_imp hd⟩, ?_⟩
      exact congrArg (c :: ·) List.takeWhile_append_dropWhile.symm
    · cases h

theorem eq_of_reference? {s name r : List Char} (h : reference? s = some (name, r)) :
    IsEntityName name ∧ s = name ++ ';' :: r := by
  unfold reference? at h
  split at h
  · next heq =>
    cases h
    exact eq_of_entityName? heq
  · cases h

theorem references_cons {c : Char} (h : c ≠ '&') (s : List Char) :
    references (c :: s) = references s := by
  rw [references, if_neg h]

theorem references_amp {s : List Char} (h : reference? s = none) :
    references ('&' :: s) = references s := by
  rw [references, if_pos rfl, h]

theorem references_append {s : List Char} (h : '&' ∉ s) (t : List Char) :
    references (s ++ t) = references t := by
  induction s with
  | nil => rfl
  | cons c s ih =>
    obtain ⟨hc, hs⟩ := List.ne_and_not_mem_of_not_mem_cons h
    rw [List.cons_append, references_cons (Ne.symm hc), ih hs]

theorem references_reference {name : List Char} (h : IsEntityName name) (s : List Char) :
    references ('&' :: (name ++ ';' :: s)) = name :: references s := by
  have hamp : '&' ∉ name := h.not_mem (by decide) (by decide)
  rw [references, if_pos rfl, reference?_append h]
  show name :: references (name ++ ';' :: s) = _
  rw [references_append hamp, references_cons (by decide)]

/-! ### The graph -/

section Graph

variable (entities : List Entity)

/-- A declared entity refers to the names in its value. -/
def RefersTo (m n : List Char) : Prop :=
  ∃ value, entities.lookup m = some value ∧ n ∈ references value

/-- No entity reaches itself. -/
def Acyclic : Prop := ∀ n, ¬ TransGen (RefersTo entities) n n

/-- A name that is reached from the references of a text. -/
def Reachable (s n : List Char) : Prop :=
  ∃ m ∈ references s, ReflTransGen (RefersTo entities) m n

/-- The greatest of some numbers. -/
def greatest (f : List Char → Nat) (names : List (List Char)) : Nat := (names.map f).foldr max 0

/-- The depth of a name, followed down a number of values. -/
def depthIn : Nat → List Char → Nat
  | 0, _ => 0
  | fuel + 1, n =>
    match entities.lookup n with
    | some value => 1 + greatest (depthIn fuel) (references value)
    | none => 0

/-- The depth of a name: nothing for a name that is not declared, and one more than the depth of
the names in its value for one that is. -/
def depth (n : List Char) : Nat := depthIn entities (entities.length + 1) n

end Graph

theorem greatest_le_iff {f : List Char → Nat} {names : List (List Char)} {k : Nat} :
    greatest f names ≤ k ↔ ∀ n ∈ names, f n ≤ k := by
  unfold greatest
  induction names with
  | nil => simp
  | cons n names ih => rw [List.map_cons, List.foldr_cons, Nat.max_le, ih, List.forall_mem_cons]

theorem greatest_congr {f g : List Char → Nat} {names : List (List Char)}
    (h : ∀ n ∈ names, f n = g n) : greatest f names = greatest g names :=
  congrArg (List.foldr max 0) (List.map_congr_left h)

variable {entities : List Entity}

theorem depthIn_le (k : Nat) (n : List Char) : depthIn entities k n ≤ k := by
  induction k generalizing n with
  | zero => exact Nat.le_refl 0
  | succ k ih =>
    rw [depthIn]
    split
    · next value _ =>
      have := greatest_le_iff.2 fun m (_ : m ∈ references value) => ih m
      omega
    · exact Nat.zero_le _

/-- A depth that is found before the fuel is used up does not change with more fuel. -/
theorem depthIn_succ_of_lt {k : Nat} {n : List Char} (h : depthIn entities k n < k) :
    depthIn entities (k + 1) n = depthIn entities k n := by
  induction k generalizing n with
  | zero => cases h
  | succ k ih =>
    cases hl : entities.lookup n with
    | none => simp only [depthIn, hl]
    | some value =>
      simp only [depthIn, hl] at h ⊢
      have hle : ∀ m ∈ references value, depthIn entities k m ≤ k - 1 :=
        greatest_le_iff.1 (by omega)
      have hk : 0 < k := by omega
      refine congrArg (1 + ·) (greatest_congr fun m hm => ?_)
      exact ih (by have := hle m hm; omega)

/-- Where all fuel is used up, there is a path of declared entities as long as the fuel. -/
theorem exists_path_of_depthIn {k : Nat} {n : List Char}
    (h : depthIn entities (k + 1) n = k + 1) :
    ∃ path, path.length = k ∧ List.IsChain (RefersTo entities) (n :: path) ∧
      ∀ m ∈ n :: path, (entities.lookup m).isSome := by
  induction k generalizing n with
  | zero =>
    cases hl : entities.lookup n with
    | none => simp [depthIn, hl] at h
    | some value =>
      exact ⟨[], rfl, .singleton n, List.forall_mem_singleton.2 (by rw [hl]; rfl)⟩
  | succ k ih =>
    cases hl : entities.lookup n with
    | none => simp [depthIn, hl] at h
    | some value =>
      have hex : ∃ m ∈ references value, depthIn entities (k + 1) m = k + 1 := by
        by_contra hne
        have hlt : ∀ m ∈ references value, depthIn entities (k + 1) m ≤ k := by
          intro m hm
          have hle : depthIn entities (k + 1) m ≤ k + 1 := depthIn_le _ m
          have : depthIn entities (k + 1) m ≠ k + 1 := fun he => hne ⟨m, hm, he⟩
          omega
        have := greatest_le_iff.2 hlt
        rw [depthIn, hl] at h
        dsimp only at h
        omega
      obtain ⟨m, hm, hd⟩ := hex
      obtain ⟨path, hlen, hchain, hdecl⟩ := ih hd
      refine ⟨m :: path, by simp [hlen], .cons_cons ⟨value, hl, hm⟩ hchain, ?_⟩
      exact List.forall_mem_cons.2 ⟨by rw [hl]; rfl, hdecl⟩

theorem mem_of_lookup {n value : List Char} (h : entities.lookup n = some value) :
    (n, value) ∈ entities := by
  obtain ⟨before, after, rfl, -⟩ := List.lookup_eq_some_iff.1 h
  simp

/-- A path without a cycle is no longer than there are declarations. -/
theorem length_le_of_path (ha : Acyclic entities) {path : List (List Char)}
    (hchain : List.IsChain (RefersTo entities) path)
    (hdecl : ∀ m ∈ path, (entities.lookup m).isSome) : path.length ≤ entities.length := by
  have hnodup : path.Nodup := by
    have hpair := (hchain.imp fun _ _ => TransGen.single).pairwise
    refine hpair.imp fun {a b} hab => ?_
    rintro rfl
    exact ha a hab
  have hsub : path ⊆ entities.map Prod.fst := by
    intro m hm
    obtain ⟨value, hl⟩ := Option.isSome_iff_exists.1 (hdecl m hm)
    exact List.mem_map_of_mem (mem_of_lookup hl)
  have := (List.subperm_of_subset hnodup hsub).length_le
  rwa [List.length_map] at this

/-- No entity reaches itself where depths fall from every name to those in its value. -/
theorem acyclic_of_depth
    (h : ∀ e ∈ entities, ∀ n ∈ references e.2, depth entities n < depth entities e.1) :
    Acyclic entities := by
  intro n hn
  have hlt : ∀ m, TransGen (RefersTo entities) n m → depth entities m < depth entities n := by
    intro m hm
    induction hm with
    | single href =>
      obtain ⟨value, hl, hm⟩ := href
      exact h _ (mem_of_lookup hl) _ hm
    | tail _ href ih =>
      obtain ⟨value, hl, hm⟩ := href
      exact (h _ (mem_of_lookup hl) _ hm).trans ih
  exact (hlt n hn).false

theorem depth_of_none {n : List Char} (h : entities.lookup n = none) : depth entities n = 0 := by
  simp only [depth, depthIn, h]

theorem depth_pos {n value : List Char} (h : entities.lookup n = some value) :
    0 < depth entities n := by
  simp only [depth, depthIn, h]
  omega

theorem depth_le (n : List Char) : depth entities n ≤ entities.length + 1 := depthIn_le _ n

/-- The depth of a declared name is one more than the greatest depth of the names in its value. -/
theorem depth_eq (ha : Acyclic entities) {n value : List Char}
    (h : entities.lookup n = some value) :
    depth entities n = 1 + greatest (depth entities) (references value) := by
  have hlt : depth entities n < entities.length + 1 := by
    have hle : depth entities n ≤ entities.length + 1 := depth_le n
    refine Nat.lt_of_le_of_ne hle fun he => ?_
    obtain ⟨path, hlen, hchain, hdecl⟩ := exists_path_of_depthIn he
    have := length_le_of_path ha hchain hdecl
    simp only [List.length_cons] at this
    omega
  have hstep := depthIn_succ_of_lt hlt
  rw [depthIn, h] at hstep
  exact hstep.symm

end Progression.Markup
