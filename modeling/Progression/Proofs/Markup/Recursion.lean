import Progression.Proofs.Markup.Parting

/-!
What is reported of entities that reach themselves. A declared name that is left after the passes
is reported as recursive, unless the text stalls: a pass gives the very text that it was given,
although there are declared names in it. This takes a value that refers to its own name
(`exists_self_of_stalls`), since of the references in a text that stalls one must come to stand in
its own value. Nothing is assumed of the texts: their `&` may stand anywhere.
-/

namespace Progression.Markup

open Progression.Text Relation

variable {entities : List Entity} {s t n : List Char}

/-! ### Where references stand -/

theorem mem_references_iff : n ∈ references s ↔
    IsEntityName n ∧ '&' :: (n ++ [';']) <:+: s := by
  constructor
  · intro hm
    induction s with
    | nil => cases hm
    | cons c s ih =>
      have hrest (hm : n ∈ references s) : IsEntityName n ∧ '&' :: (n ++ [';']) <:+: c :: s := by
        obtain ⟨hn, hinfix⟩ := ih hm
        exact ⟨hn, hinfix.trans (List.suffix_cons c s).isInfix⟩
      rw [references] at hm
      split at hm
      · next name rest hr =>
        split at hr
        · next hc =>
          obtain ⟨hn, rfl⟩ := eq_of_reference? hr
          rcases List.mem_cons.1 hm with rfl | hm
          · exact ⟨hn, [], rest, by simp [hc]⟩
          · exact hrest hm
        · cases hr
      · exact hrest hm
  · rintro ⟨hn, u, w, rfl⟩
    have hassoc : u ++ '&' :: (n ++ [';']) ++ w = u ++ '&' :: (n ++ ';' :: w) := by simp
    rw [hassoc]
    induction u with
    | nil =>
      rw [List.nil_append, references_reference hn]
      exact List.mem_cons_self
    | cons c u ih =>
      rw [List.cons_append, references]
      split
      · exact List.mem_cons_of_mem _ (ih (by simp))
      · exact ih (by simp)

theorem references_subset (h : s <:+: t) : references s ⊆ references t := by
  intro n hm
  obtain ⟨hn, hinfix⟩ := mem_references_iff.1 hm
  exact mem_references_iff.2 ⟨hn, hinfix.trans h⟩

/-- What comes in the place of a reference stands in the text after a pass. -/
theorem replacement_stands (h : n ∈ references s) :
    (entities.lookup n).getD ('&' :: (n ++ [';'])) <:+: substitute entities s := by
  induction s using substitute.induct with
  | case1 => cases h
  | case2 s name rest hname ih =>
    obtain ⟨hn, rfl⟩ := eq_of_reference? hname
    rw [references_reference hn] at h
    rw [substitute_reference hn]
    rcases List.mem_cons.1 h with rfl | h
    · exact (List.prefix_append _ _).isInfix
    · exact (ih h).trans (List.suffix_append _ _).isInfix
  | case3 s hnone ih =>
    rw [references_amp hnone] at h
    rw [substitute_amp hnone]
    exact (ih h).trans (List.suffix_cons _ _).isInfix
  | case4 c s hc ih =>
    rw [references_cons hc] at h
    rw [substitute_cons hc]
    exact (ih h).trans (List.suffix_cons _ _).isInfix

theorem substitute_eq_self (h : ∀ m ∈ references s, entities.lookup m = none) :
    substitute entities s = s := by
  induction s using substitute.induct with
  | case1 => rw [substitute]
  | case2 s name rest hname ih =>
    obtain ⟨hn, rfl⟩ := eq_of_reference? hname
    rw [references_reference hn] at h
    obtain ⟨hself, hrest⟩ := List.forall_mem_cons.1 h
    rw [substitute_reference hn, hself, ih hrest]
    simp
  | case3 s hnone ih =>
    rw [references_amp hnone] at h
    rw [substitute_amp hnone, ih h]
  | case4 c s hc ih =>
    rw [references_cons hc] at h
    rw [substitute_cons hc, ih h]

/-! ### Texts that stall -/

/-- A pass changes nothing, although a declared name is left that is to be replaced. -/
def Stalls (entities : List Entity) (s : List Char) : Prop :=
  substitute entities s = s ∧
    ∃ n ∈ references s, (entities.lookup n).isSome = true ∧ isBuiltin n = false

/-- A part of a text that begins no earlier than another and ends no later is a part of it. -/
theorem infix_of_append_eq {p r s q v t : List Char} (h : p ++ (r ++ s) = q ++ (v ++ t))
    (hq : q.length ≤ p.length) (hv : p.length + r.length ≤ q.length + v.length) : r <:+: v := by
  obtain ⟨x, rfl⟩ := List.prefix_of_prefix_length_le ⟨v ++ t, rfl⟩ ⟨r ++ s, h⟩ hq
  rw [List.append_assoc, List.append_cancel_left_eq] at h
  have hlen : (x ++ r).length ≤ v.length := by
    simp only [List.length_append] at hv ⊢
    omega
  have hpre : x ++ r <+: v ++ t := ⟨s, by rw [List.append_assoc, h]⟩
  obtain ⟨y, rfl⟩ := List.prefix_of_prefix_length_le hpre ⟨t, rfl⟩ hlen
  exact ⟨x, y, rfl⟩

/-- Where two texts are equal behind beginnings of which that of the replaced one is no longer, a
declared reference comes to stand in its own value. -/
theorem exists_self_of_eq {p q : List Char} (h : p ++ s = q ++ substitute entities s)
    (hle : q.length ≤ p.length) (hd : ∃ n ∈ references s, (entities.lookup n).isSome = true) :
    ∃ n ∈ references s, RefersTo entities n n := by
  induction s using substitute.induct generalizing p q with
  | case1 =>
    obtain ⟨n, hm, -⟩ := hd
    cases hm
  | case2 s name rest hname ih =>
    obtain ⟨hn, rfl⟩ := eq_of_reference? hname
    rw [substitute_reference hn] at h
    rw [references_reference hn] at hd ⊢
    have hsplit : '&' :: (name ++ ';' :: rest) = '&' :: (name ++ [';']) ++ rest := by simp
    rw [hsplit] at h
    have hrest (hle : (q ++ (entities.lookup name).getD ('&' :: (name ++ [';']))).length ≤
        (p ++ '&' :: (name ++ [';'])).length)
        (hd : ∃ n ∈ references rest, (entities.lookup n).isSome = true) :
        ∃ n ∈ name :: references rest, RefersTo entities n n := by
      obtain ⟨m, hm, hself⟩ := ih (by simpa using h) hle hd
      exact ⟨m, List.mem_cons_of_mem _ hm, hself⟩
    cases hl : entities.lookup name with
    | none =>
      rw [hl, Option.getD_none] at hrest
      refine hrest ?_ ?_
      · simp only [List.length_append]
        omega
      · obtain ⟨m, hm, hsome⟩ := hd
        rcases List.mem_cons.1 hm with rfl | hm
        · rw [hl] at hsome
          cases hsome
        · exact ⟨m, hm, hsome⟩
    | some value =>
      rw [hl, Option.getD_some] at h hrest
      by_cases hend : (p ++ '&' :: (name ++ [';'])).length ≤ (q ++ value).length
      · have hinfix := infix_of_append_eq h hle (by simpa using hend)
        exact ⟨name, List.mem_cons_self, value, hl, mem_references_iff.2 ⟨hn, hinfix⟩⟩
      · -- The value falls short, so a reference behind it has to make up for that.
        refine hrest (by omega) ?_
        by_contra hnone
        have hfix : substitute entities rest = rest := by
          refine substitute_eq_self fun m hm => Option.eq_none_iff_forall_ne_some.2 ?_
          intro value hvalue
          exact hnone ⟨m, hm, by rw [hvalue]; rfl⟩
        have hlen := congrArg List.length h
        rw [hfix] at hlen
        simp only [List.length_append] at hlen hend
        omega
  | case3 s hnone ih =>
    rw [substitute_amp hnone] at h
    rw [references_amp hnone] at hd ⊢
    exact ih (p := p ++ ['&']) (q := q ++ ['&']) (by simpa using h) (by simpa using hle) hd
  | case4 c s hc ih =>
    rw [substitute_cons hc] at h
    rw [references_cons hc] at hd ⊢
    exact ih (p := p ++ [c]) (q := q ++ [c]) (by simpa using h) (by simpa using hle) hd

/-- A text stalls only at a value that refers to its own name. -/
theorem exists_self_of_stalls (h : Stalls entities s) :
    ∃ n ∈ references s, RefersTo entities n n := by
  obtain ⟨hfix, n, hm, hsome, -⟩ := h
  exact exists_self_of_eq (p := []) (q := []) (by rw [hfix]) (Nat.le_refl _) ⟨n, hm, hsome⟩

/-- Passes that come to rest do so at the text of an earlier pass. -/
theorem exists_fixed_of_settle {k : Nat} (h : (settle entities k s).2 = true) :
    ∃ j < k, substitute entities (passes entities j s) = passes entities j s ∧
      passes entities k s = passes entities j s := by
  induction k generalizing s with
  | zero => cases h
  | succ k ih =>
    rw [settle] at h
    by_cases hfix : substitute entities s = s
    · exact ⟨0, Nat.succ_pos k, hfix, passes_of_fixed hfix (k + 1)⟩
    · rw [if_neg hfix] at h
      obtain ⟨j, hj, hpass, heq⟩ := ih h
      exact ⟨j + 1, Nat.succ_lt_succ hj, hpass, heq⟩

/-! ### Names that come again and again -/

/-- The value of a declared name refers to a name that is not built in. -/
def Needs (entities : List Entity) (m n : List Char) : Prop :=
  RefersTo entities m n ∧ isBuiltin n = false

/-- A name that leads to a name which reaches itself. -/
def Loops (entities : List Entity) (n : List Char) : Prop :=
  isBuiltin n = false ∧ ∃ m, ReflTransGen (Needs entities) n m ∧ TransGen (Needs entities) m m

theorem Loops.exists_refersTo (h : Loops entities n) :
    ∃ m, RefersTo entities n m ∧ Loops entities m := by
  obtain ⟨-, m, hreach, hself⟩ := h
  obtain ⟨c, ⟨href, hc⟩, hcm⟩ := TransGen.head'_iff.1 (TransGen.trans_right hreach hself)
  exact ⟨c, href, hc, m, hcm, hself⟩

/-- A pass does not get rid of names that loop. -/
theorem Loops.passes (h : Loops entities n) (hm : n ∈ references s) (k : Nat) :
    ∃ m ∈ references (passes entities k s), Loops entities m := by
  induction k generalizing s n with
  | zero => exact ⟨n, hm, h⟩
  | succ k ih =>
    obtain ⟨m, ⟨value, hl, hv⟩, hloops⟩ := h.exists_refersTo
    have hinfix := @replacement_stands entities _ _ hm
    rw [hl, Option.getD_some] at hinfix
    exact ih hloops (references_subset hinfix hv)

/-! ### What is reported -/

/-- What is reported of the names that are left after the passes. -/
structure ReportsLeft (source : String) (body text : List Char) (entities : List Entity) : Prop where
  /-- A name that is reported as undefined is neither declared nor built in, if no pass stalls. -/
  undefined : ∀ name, expand source text = .error (.undefinedEntity name) →
    isBuiltin name.toList = false ∧ (entities.lookup name.toList = none ∨
      ∃ k < passLimit, Stalls entities (passes entities k body))
  /-- Where all names that are left are known, the failure is that of recursion, and the name in it
  is declared, if no pass stalls. -/
  recursive : (∀ n ∈ references (passes entities passLimit body), isKnown entities n = true) →
    ∀ e, expand source text = .error e →
      (∃ line name, (entities.lookup name).isSome = true ∧
        e = .parse source line ("entity '" ++ String.ofList name ++ "' expands recursively")) ∨
      ∃ k < passLimit, Stalls entities (passes entities k body)
  /-- A text with a name that loops is not expanded. -/
  fails : (∃ n ∈ references body, Loops entities n) → ∃ e, expand source text = .error e
  /-- A pass stalls only at a value that refers to its own name. -/
  stalls : ∀ s, Stalls entities s → ∃ n ∈ references s, RefersTo entities n n

section Reports

variable {source : String} {body text : List Char}
  (hs : stripBlock source text = .ok (body, entities))

include hs

/-- A failure behind the block is about the first name that is left and not built in. -/
theorem expand_eq_error {e : Error} (h : expand source text = .error e) :
    ∃ before name, name ∈ references (passes entities passLimit body) ∧ isBuiltin name = false ∧
      if !(settle entities passLimit body).2 && (entities.lookup name).isSome then
        e = .parse source (lineAfter before)
          ("entity '" ++ String.ofList name ++ "' expands recursively")
      else e = .undefinedEntity (String.ofList name) := by
  rw [expand_eq hs] at h
  cases hf : firstReference? (passes entities passLimit body) with
  | none =>
    rw [hf] at h
    cases h
  | some p =>
    obtain ⟨before, name⟩ := p
    have hfind := firstReference?_map_snd (passes entities passLimit body)
    rw [hf, Option.map_some] at hfind
    refine ⟨before, name, List.mem_of_find?_eq_some hfind.symm, ?_, ?_⟩
    · simpa using List.find?_some hfind.symm
    · rw [hf] at h
      dsimp only at h
      split at h <;> next hcond => simp only [hcond]; cases h; rfl

omit hs in
theorem stalls_of_settled {name : List Char}
    (hm : name ∈ references (passes entities passLimit body)) (hb : isBuiltin name = false)
    (hl : (entities.lookup name).isSome = true) (hset : (settle entities passLimit body).2 = true) :
    ∃ k < passLimit, Stalls entities (passes entities k body) := by
  obtain ⟨k, hk, hfix, heq⟩ := exists_fixed_of_settle hset
  exact ⟨k, hk, hfix, name, heq ▸ hm, hl, hb⟩

/-- A declared name is reported as undefined only of a text that stalls, and one that loops is
reported. -/
theorem reportsLeft_of_stripBlock : ReportsLeft source body text entities := by
  refine ⟨?_, ?_, ?_, fun s => exists_self_of_stalls⟩
  · intro name h
    obtain ⟨before, found, hm, hb, hcase⟩ := expand_eq_error hs h
    split at hcase
    · cases hcase
    · next hcond =>
      cases hcase
      rw [String.toList_ofList]
      refine ⟨hb, ?_⟩
      cases hl : entities.lookup found with
      | none => exact .inl rfl
      | some value =>
        refine .inr (stalls_of_settled hm hb (by rw [hl]; rfl) ?_)
        simpa [hl] using hcond
  · intro hknown e h
    obtain ⟨before, found, hm, hb, hcase⟩ := expand_eq_error hs h
    have hl : (entities.lookup found).isSome = true := by
      simpa [isKnown, hb] using hknown found hm
    split at hcase
    · exact .inl ⟨_, found, hl, hcase⟩
    · next hcond => exact .inr (stalls_of_settled hm hb hl (by simpa [hl] using hcond))
  · rintro ⟨n, hm, hloops⟩
    obtain ⟨m, hm, hb, -⟩ := hloops.passes hm passLimit
    obtain ⟨before, name, hf, -⟩ := exists_firstReference? hm hb
    rw [expand_eq hs, hf]
    dsimp only
    split
    · exact ⟨_, rfl⟩
    · exact ⟨_, rfl⟩

end Reports

/-- Two entities that reach themselves through each other. -/
abbrev cycle : List Entity := [("a".toList, "&b;".toList), ("b".toList, "&a;".toList)]

theorem reportsLeft_of_cycle : ∃ line name, expand "test"
    "<!DOCTYPE P [<!ENTITY a \"&b;\"> <!ENTITY b \"&a;\">]><P v=\"&a;\"/>".toList =
      .error (.parse "test" line ("entity '" ++ String.ofList name ++ "' expands recursively")) := by
  have hs : stripBlock "test"
      "<!DOCTYPE P [<!ENTITY a \"&b;\"> <!ENTITY b \"&a;\">]><P v=\"&a;\"/>".toList =
        .ok ("<P v=\"&a;\"/>".toList, cycle) := by decide +kernel
  have h := reportsLeft_of_stripBlock hs
  have hab : Needs cycle "a".toList "b".toList := ⟨⟨"&b;".toList, rfl, by decide +kernel⟩, rfl⟩
  have hba : Needs cycle "b".toList "a".toList := ⟨⟨"&a;".toList, rfl, by decide +kernel⟩, rfl⟩
  obtain ⟨e, he⟩ := h.fails ⟨"a".toList, by decide +kernel, rfl, _, .refl, .tail (.single hab) hba⟩
  rcases h.recursive (by decide +kernel) e he with ⟨line, name, -, rfl⟩ | ⟨k, hk, hfix, -⟩
  · exact ⟨line, name, he⟩
  · have hmoves : ∀ k < passLimit, substitute cycle (passes cycle k "<P v=\"&a;\"/>".toList) ≠
        passes cycle k "<P v=\"&a;\"/>".toList := by decide +kernel
    exact absurd hfix (hmoves k hk)

/-- An entity whose value is the reference to itself is declared, and yet it is reported as
undefined: the first pass gives the text that it was given. -/
theorem expand_self_reference :
    stripBlock "test" "<!DOCTYPE P [<!ENTITY a \"&a;\">]><P v=\"&a;\"/>".toList =
        .ok ("<P v=\"&a;\"/>".toList, [("a".toList, "&a;".toList)]) ∧
      expand "test" "<!DOCTYPE P [<!ENTITY a \"&a;\">]><P v=\"&a;\"/>".toList =
        .error (.undefinedEntity "a") := by
  decide +kernel

end Progression.Markup
