import Progression.Program.Basic
import Progression.Proofs.Markup.Canonical

/-!
Looking up attributes. The names of a tag differ when it is read, but a lookup does not heed their
case: where several names match, the first of them in order is taken. Where no two names of a tag
are equal up to case, one attribute matches at most, and their order does not count, neither for
the lookup nor for the step that is built, which sees attributes through lookups only
(`build_congr`).
-/

namespace Progression

open Progression.Text

theorem sameWord_iff {a b : String} : sameWord a b = true ↔ lower a.toList = lower b.toList :=
  beq_iff_eq

namespace Markup

/-! ### The tags of a tree -/

theorem Node.mem_all_iff {n m : Node} : m ∈ n.all ↔ m = n ∨ m ∈ allOf n.children := by
  cases n
  simp [all]

/-- The opening tag of an element stands in a text. -/
def HasHead (s : List Char) (n : Node) : Prop :=
  ∃ head, head <:+: s ∧ HeadForm n.tag n.attributes head

theorem HasHead.mono {s t : List Char} {n : Node} (h : HasHead s n) (hs : s <:+: t) :
    HasHead t n := by
  obtain ⟨head, hhead, hform⟩ := h
  exact ⟨head, hhead.trans hs, hform⟩

mutual

theorem ElementForm.hasHead {line : Nat} {n : Node} {s : List Char} :
    ElementForm line n s → ∀ m ∈ n.all, HasHead s m
  | .closed hs _ _ hn => by
    intro m hm
    rcases Node.mem_all_iff.1 hm with rfl | hm
    · exact ⟨_, (List.prefix_append _ _).isInfix, hs⟩
    · rw [hn] at hm
      cases hm
  | @ElementForm.opened _ _ s _ body e hs _ hb _ _ => by
    intro m hm
    rcases Node.mem_all_iff.1 hm with rfl | hm
    · exact ⟨_, (List.prefix_append _ _).isInfix, hs⟩
    · exact (hb.hasHead m hm).mono ⟨s ++ ['>'], e, by simp⟩

theorem ContentForm.hasHead {line : Nat} {t : List Char} {ns : List Node} {s : List Char} :
    ContentForm line t ns s → ∀ m ∈ Node.allOf ns, HasHead s m
  | .nil => by
    intro m hm
    cases hm
  | .run _ _ _ hs => fun m hm => (hs.hasHead m hm).mono (List.suffix_append _ _).isInfix
  | .data _ _ hs => fun m hm => (hs.hasHead m hm).mono (List.suffix_append _ _).isInfix
  | .aside _ hs => fun m hm => (hs.hasHead m hm).mono (List.suffix_append _ _).isInfix
  | .child hn hs => by
    intro m hm
    rcases List.mem_append.1 hm with hm | hm
    · exact (hn.hasHead m hm).mono (List.prefix_append _ _).isInfix
    · exact (hs.hasHead m hm).mono (List.suffix_append _ _).isInfix

end

theorem HasHead.ordered {s : List Char} {n : Node} (h : HasHead s n) : Ordered n.attributes := by
  obtain ⟨head, -, hform⟩ := h
  exact hform.regular.2.2

/-! ### Lookups -/

namespace Node

variable {n m : Node} {name value : String}

/-- The attributes that match a name. -/
def matching (n : Node) (name : String) : List (String × String) :=
  n.attributes.filter fun a => sameWord a.1 name

/-- No two names of a tag are equal up to case. -/
def Unambiguous (n : Node) : Prop :=
  n.attributes.Pairwise fun a b => sameWord a.1 b.1 = false

instance (n : Node) : Decidable n.Unambiguous := List.instDecidablePairwise _

/-- A search finds a member that nothing found stands before. -/
theorem find?_eq_some_of_pairwise {α : Type} {R : α → α → Prop} {p : α → Bool} {l : List α} {x : α}
    (hl : l.Pairwise R) (hx : x ∈ l) (hp : p x) (hfirst : ∀ a ∈ l, R a x → ¬p a) :
    l.find? p = some x := by
  obtain ⟨as, bs, rfl⟩ := List.append_of_mem hx
  refine List.find?_eq_some_iff_append.2 ⟨hp, as, bs, rfl, ?_⟩
  intro a ha
  have hax := (List.pairwise_append.1 hl).2.2 a ha x List.mem_cons_self
  simpa using hfirst a (List.mem_append_left _ ha) hax

/-- Of the attributes that match a name, the first in the order of names is taken. -/
theorem attribute?_eq_some_iff (ho : Ordered n.attributes) : n.attribute? name = some value ↔
    ∃ key, (key, value) ∈ n.attributes ∧ sameWord key name ∧
      ∀ a ∈ n.attributes, sameWord a.1 name → key ≤ a.1 := by
  unfold attribute?
  rw [Option.map_eq_some_iff]
  constructor
  · rintro ⟨⟨key, v⟩, hfind, rfl⟩
    obtain ⟨hkey, as, bs, has, hnone⟩ := List.find?_eq_some_iff_append.1 hfind
    rw [has] at ho ⊢
    have hlt := (List.pairwise_cons.1 (List.pairwise_append.1 ho).2.1).1
    refine ⟨key, by simp, hkey, ?_⟩
    intro a ha hmatch
    rcases List.mem_append.1 ha with ha | ha
    · have hn := hnone a ha
      simp [hmatch] at hn
    · rcases List.mem_cons.1 ha with rfl | ha
      · exact le_rfl
      · exact (hlt a ha).le
  · rintro ⟨key, hmem, hkey, hleast⟩
    refine ⟨(key, value), find?_eq_some_of_pairwise ho hmem hkey ?_, rfl⟩
    intro a ha hlt hmatch
    exact absurd hlt (hleast a ha hmatch).not_gt

/-- No two names of a tag are equal up to case exactly if every name matches one of them at most. -/
theorem unambiguous_iff : n.Unambiguous ↔ ∀ name, (n.matching name).length ≤ 1 := by
  constructor
  · intro h name
    have hfilter : (n.matching name).Pairwise fun a b => sameWord a.1 b.1 = false :=
      h.sublist List.filter_sublist
    have hall : ∀ a ∈ n.matching name, sameWord a.1 name := fun a ha => (List.mem_filter.1 ha).2
    cases hm : n.matching name with
    | nil => exact Nat.zero_le 1
    | cons a as =>
      cases as with
      | nil => exact Nat.le_refl 1
      | cons b as =>
        rw [hm] at hfilter hall
        have hne := (List.pairwise_cons.1 hfilter).1 b List.mem_cons_self
        have ha := sameWord_iff.1 (hall a List.mem_cons_self)
        have hb := sameWord_iff.1 (hall b (List.mem_cons_of_mem _ List.mem_cons_self))
        rw [sameWord_iff.2 (ha.trans hb.symm)] at hne
        cases hne
  · intro h
    refine List.pairwise_iff_forall_sublist.2 ?_
    intro a b hab
    by_contra hsame
    have hb : sameWord b.1 a.1 = true :=
      sameWord_iff.2 (sameWord_iff.1 (by simpa using hsame)).symm
    have hboth : [a, b].filter (fun x => sameWord x.1 a.1) = [a, b] := by
      have ha : sameWord a.1 a.1 = true := sameWord_iff.2 rfl
      simp [ha, hb]
    have hlen := (hab.filter fun x => sameWord x.1 a.1).length_le
    rw [hboth] at hlen
    exact absurd (hlen.trans (h a.1)) (by simp)

theorem Unambiguous.attribute?_eq_some_iff (h : n.Unambiguous) :
    n.attribute? name = some value ↔
      ∃ key, (key, value) ∈ n.attributes ∧ sameWord key name := by
  unfold attribute?
  rw [Option.map_eq_some_iff]
  constructor
  · rintro ⟨⟨key, v⟩, hfind, rfl⟩
    have hkey := List.find?_some hfind
    exact ⟨key, List.mem_of_find?_eq_some hfind, hkey⟩
  · rintro ⟨key, hmem, hkey⟩
    refine ⟨(key, value), find?_eq_some_of_pairwise h hmem hkey ?_, rfl⟩
    intro a _ hne hmatch
    rw [sameWord_iff.2 ((sameWord_iff.1 hmatch).trans (sameWord_iff.1 hkey).symm)] at hne
    cases hne

/-- The order of attributes does not count where no two of them are equal up to case. -/
theorem Unambiguous.attribute?_of_perm (h : n.Unambiguous) (hp : n.attributes.Perm m.attributes)
    (name : String) : n.attribute? name = m.attribute? name := by
  have hm : m.Unambiguous := by
    refine (hp.pairwise_iff ?_).1 h
    intro a b hab
    by_contra hba
    rw [sameWord_iff.2 (sameWord_iff.1 (by simpa using hba)).symm] at hab
    cases hab
  ext value
  rw [h.attribute?_eq_some_iff, hm.attribute?_eq_some_iff]
  exact exists_congr fun key => and_congr_left fun _ => hp.mem_iff

end Node

/-! ### Steps -/

mutual

/-- A tree with the attributes of each element in any order. -/
inductive Reordered : Node → Node → Prop
  | mk {tag text : String} {as bs : List (String × String)} {ns ms : List Node} {line : Nat} :
    as.Perm bs → ReorderedAll ns ms → Reordered ⟨tag, as, text, ns, line⟩ ⟨tag, bs, text, ms, line⟩

inductive ReorderedAll : List Node → List Node → Prop
  | nil : ReorderedAll [] []
  | cons {n m : Node} {ns ms : List Node} : Reordered n m → ReorderedAll ns ms →
    ReorderedAll (n :: ns) (m :: ms)

end

end Markup

namespace Step

open Markup (Node Reordered ReorderedAll)

/-- A step sees the attributes of its element through lookups only. -/
theorem build_congr {n m : Node} (h : ∀ name, n.attribute? name = m.attribute? name)
    (htag : n.tag = m.tag) (htext : n.text = m.text) (hline : n.line = m.line) (body : List Step) :
    build n body = build m body := by
  have hrequired : n.required = m.required := by
    funext key
    unfold Node.required
    rw [h]
  have hnumber {α : Type} (read : List Char → Option α) : n.number read = m.number read := by
    funext key
    unfold Node.number
    rw [hrequired]
  have hnumber? {α : Type} (read : List Char → Option α) : n.number? read = m.number? read := by
    funext key
    unfold Node.number?
    rw [hnumber, h]
  have hplace : n.place = m.place := by
    unfold Node.place
    rw [hrequired]
  have hwait : waitOf n = waitOf m := by
    unfold waitOf
    rw [hnumber?, hnumber?]
  have hinteraction (kind : Interaction) : interactionOf n kind = interactionOf m kind := by
    unfold interactionOf
    simp only [hnumber, hnumber?, hplace]
  unfold build
  simp only [h, htag, htext, hline, hrequired, hnumber, hplace, hwait, hinteraction]

mutual

theorem ofNode_of_reordered : ∀ {n m : Node}, Reordered n m → (∀ k ∈ n.all, k.Unambiguous) →
    ofNode n = ofNode m
  | _, _, @Reordered.mk tag text as bs ns ms line hp hns, hall => by
    have hself := hall _ (Node.mem_all_iff.2 (.inl rfl))
    have hlook := hself.attribute?_of_perm (m := ⟨tag, bs, text, ms, line⟩) hp
    have hbody := ofNodes_of_reordered hns fun k hk => hall k (Node.mem_all_iff.2 (.inr hk))
    rw [ofNode, ofNode, hbody, build_congr hlook rfl rfl rfl]

theorem ofNodes_of_reordered : ∀ {ns ms : List Node}, ReorderedAll ns ms →
    (∀ k ∈ Node.allOf ns, k.Unambiguous) → ofNodes ns = ofNodes ms
  | _, _, .nil, _ => rfl
  | _, _, .cons hn hns, hall => by
    obtain ⟨hn', hns'⟩ := List.forall_mem_append.1 hall
    rw [ofNodes, ofNodes, ofNode_of_reordered hn hn', ofNodes_of_reordered hns hns']

end

end Step

namespace Markup

/-! ### Trees that are read -/

/-- What can be said of lookups in a tree that is read from a text. -/
structure LooksUp (s : List Char) (root : Node) : Prop where
  /-- The attributes of an element are those of its tag as it is written; no name stands twice. -/
  heads : ∀ n ∈ root.all, HasHead s n
  value : ∀ n ∈ root.all, ∀ name value, n.attribute? name = some value ↔
    ∃ key, (key, value) ∈ n.attributes ∧ sameWord key name ∧
      ∀ a ∈ n.attributes, sameWord a.1 name → key ≤ a.1
  unique : ∀ n ∈ root.all, n.Unambiguous ↔ ∀ name, (n.matching name).length ≤ 1
  /-- What a program does with a tree depends on the order of attributes only where two names of a
  tag are equal up to case. -/
  order : (∀ n ∈ root.all, n.Unambiguous) → ∀ m, Reordered root m → Step.ofNode root = Step.ofNode m

/-- Lookups are unambiguous in every tree that is read, but for names that are equal up to case. -/
theorem looksUp_of_read {source : String} {s : List Char} {root : Node}
    (h : read source s = .ok root) : LooksUp s root := by
  have hheads : ∀ n ∈ root.all, HasHead s n := by
    cases document_eq_ok_iff.1 (read_eq_ok_iff.1 h) with
    | @mk a e b _ he _ => exact fun n hn => (he.hasHead n hn).mono ⟨a, b, by simp⟩
  refine ⟨hheads, ?_, fun _ _ => Node.unambiguous_iff, fun hall m hm => ?_⟩
  · exact fun n hn _ _ => Node.attribute?_eq_some_iff (hheads n hn).ordered
  · exact Step.ofNode_of_reordered hm hall

/-- Two elements with two attributes each, where no two names are equal up to case. -/
theorem looksUp_of_read_nested :
    ∃ root, read "test" "<P b='1' A='2'><Q c='3' b=\"4\"/></P>".toList = .ok root ∧
      LooksUp "<P b='1' A='2'><Q c='3' b=\"4\"/></P>".toList root ∧
      ∀ m, Reordered root m → Step.ofNode root = Step.ofNode m := by
  obtain ⟨root, hroot, hall⟩ := Except.exists_eq_ok_and
    (x := read "test" "<P b='1' A='2'><Q c='3' b=\"4\"/></P>".toList)
    (p := fun n => n.all.all fun m => decide m.Unambiguous) (by decide +kernel)
  have h := looksUp_of_read hroot
  exact ⟨root, hroot, h, h.order (by simpa using hall)⟩

/-- Names that differ in case only are let through, and then the order of names decides: the value
that is looked up is that of the name in upper case. -/
theorem attribute?_of_two_cases :
    ∃ root, read "test" "<A b=\"1\" B=\"2\"/>".toList = .ok root ∧
      (root.matching "b").length = 2 ∧ root.attribute? "b" = some "2" ∧
      Node.attribute? { root with attributes := root.attributes.reverse } "b" = some "1" := by
  obtain ⟨root, hroot, h⟩ := Except.exists_eq_ok_and
    (x := read "test" "<A b=\"1\" B=\"2\"/>".toList)
    (p := fun n => decide ((n.matching "b").length = 2 ∧ n.attribute? "b" = some "2" ∧
      Node.attribute? { n with attributes := n.attributes.reverse } "b" = some "1"))
    (by decide +kernel)
  exact ⟨root, hroot, of_decide_eq_true h⟩

end Markup
end Progression
