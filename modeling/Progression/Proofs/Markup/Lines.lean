import Progression.Proofs.Files
import Progression.Proofs.Markup.Parting

/-!
Lines of expanded texts. A name goes over no line break, so that the passes go over a text line by
line (`passes_break`); where no value has a line break, they keep its lines.
-/

namespace Progression.Markup

open Progression.Text

/-! ### Lines of a text -/

/-- The lines of a text, without the breaks between them. -/
def linesOf (s : List Char) : List (List Char) := divide '\n' s

theorem linesOf_append (s t : List Char) : linesOf (s ++ '\n' :: t) = linesOf s ++ linesOf t :=
  Path.divide_append '\n' s t

theorem linesOf_of_not_mem {s : List Char} (h : '\n' ∉ s) : linesOf s = [s] :=
  Path.divide_of_not_mem h

theorem linesOf_break (s : List Char) : linesOf ('\n' :: s) = [] :: linesOf s := (rfl)

theorem linesOf_cons {c : Char} (h : c ≠ '\n') (s : List Char) :
    ∃ l ls, linesOf s = l :: ls ∧ linesOf (c :: s) = (c :: l) :: ls := by
  have hne : linesOf s ≠ [] := by
    cases s with
    | nil => simp [linesOf, divide]
    | cons d s =>
      rw [linesOf, divide]
      split
      · simp
      · split <;> simp
  obtain ⟨l, ls, hs⟩ := List.exists_cons_of_ne_nil hne
  refine ⟨l, ls, hs, ?_⟩
  unfold linesOf at hs ⊢
  rw [divide, if_neg h, hs]

theorem length_linesOf (s : List Char) : (linesOf s).length = s.count '\n' + 1 := by
  induction s with
  | nil => rfl
  | cons c s ih =>
    by_cases hc : c = '\n'
    · rw [hc, linesOf_break, List.length_cons, ih, List.count_cons_self]
    · obtain ⟨l, ls, hs, hcs⟩ := linesOf_cons hc s
      rw [hs] at ih
      rw [hcs, List.count_cons_of_ne hc, ← ih]
      rfl

/-- The lines before the last of a text stay when the text goes on. -/
theorem getElem?_linesOf_left {s : List Char} {i : Nat} (h : i < s.count '\n') (t : List Char) :
    (linesOf (s ++ t))[i]? = (linesOf s)[i]? := by
  induction s generalizing i with
  | nil => simp at h
  | cons c s ih =>
    rw [List.cons_append]
    by_cases hc : c = '\n'
    · rw [hc, linesOf_break, linesOf_break]
      rw [hc, List.count_cons_self] at h
      cases i with
      | zero => rfl
      | succ i => simpa using ih (by omega)
    · obtain ⟨l, ls, hs, hcs⟩ := linesOf_cons hc s
      obtain ⟨m, ms, hst, hcst⟩ := linesOf_cons hc (s ++ t)
      rw [List.count_cons_of_ne hc] at h
      have ih := ih h
      rw [hs, hst] at ih
      rw [hcs, hcst]
      cases i with
      | zero => simpa using ih
      | succ i => simpa using ih

/-- The lines behind the first of a text stay when something is put before it. -/
theorem getElem?_linesOf_right (s t : List Char) {i : Nat} (h : 0 < i) :
    (linesOf (s ++ t))[s.count '\n' + i]? = (linesOf t)[i]? := by
  induction s with
  | nil => simp
  | cons c s ih =>
    rw [List.cons_append]
    by_cases hc : c = '\n'
    · rw [hc, linesOf_break, List.count_cons_self, Nat.add_right_comm, List.getElem?_cons_succ, ih]
    · obtain ⟨l, ls, hst, hcst⟩ := linesOf_cons hc (s ++ t)
      obtain ⟨j, hj⟩ : ∃ j, s.count '\n' + i = j + 1 := ⟨s.count '\n' + i - 1, by omega⟩
      rw [hst, hj] at ih
      rw [hcst, List.count_cons_of_ne hc, hj]
      exact ih

/-! ### Passes line by line -/

variable {es : List Entity} {s t : List Char} {k : Nat}

theorem IsEntityName.break_not_mem {name : List Char} (h : IsEntityName name) : '\n' ∉ name :=
  h.not_mem (by decide) (by decide)

theorem not_spans_break : ¬ Spans IsEntityName s ('\n' :: t) := by
  rintro ⟨a, n, m, b, -, ht, hn⟩
  cases m with
  | nil => cases ht
  | cons x m =>
    obtain ⟨rfl, -⟩ := List.cons.inj ht
    exact hn.break_not_mem (by simp)

/-- The passes go over the texts before and behind a line break each by itself. -/
theorem passes_break (es : List Entity) (k : Nat) (s t : List Char) :
    passes es k (s ++ '\n' :: t) = passes es k s ++ '\n' :: passes es k t := by
  induction k generalizing s t with
  | zero => rfl
  | succ k ih =>
    rw [passes, substitute_append not_spans_break, substitute_cons (by decide), ih]
    rfl

/-- Values without line breaks. -/
def OneLine (es : List Entity) : Prop :=
  ∀ name value, es.lookup name = some value → '\n' ∉ value

theorem oneLine_of_forall (h : ∀ e ∈ es, '\n' ∉ e.2) : OneLine es :=
  fun _ _ hl => h _ (mem_of_lookup hl)

theorem OneLine.replacement (hv : OneLine es) {name : List Char} (hn : IsEntityName name) :
    '\n' ∉ (es.lookup name).getD ('&' :: (name ++ [';'])) := by
  cases hl : es.lookup name with
  | none => simp [hn.break_not_mem]
  | some value => exact hv name value hl

theorem OneLine.substitute (hv : OneLine es) (h : '\n' ∉ s) : '\n' ∉ substitute es s := by
  induction s using Markup.substitute.induct with
  | case1 => rwa [Markup.substitute]
  | case2 s name rest hname ih =>
    obtain ⟨hn, rfl⟩ := eq_of_reference? hname
    rw [substitute_reference hn]
    have hrest : '\n' ∉ rest := fun hm => h (by simp [hm])
    exact fun hm => (List.mem_append.1 hm).elim (hv.replacement hn) (ih hrest)
  | case3 s hnone ih =>
    rw [substitute_amp hnone]
    obtain ⟨-, hs⟩ := List.ne_and_not_mem_of_not_mem_cons h
    exact fun hm => (List.mem_cons.1 hm).elim (by decide) (ih hs)
  | case4 c s hc ih =>
    rw [substitute_cons hc]
    obtain ⟨hne, hs⟩ := List.ne_and_not_mem_of_not_mem_cons h
    exact fun hm => (List.mem_cons.1 hm).elim hne (ih hs)

theorem OneLine.passes (hv : OneLine es) (h : '\n' ∉ s) : '\n' ∉ passes es k s := by
  induction k generalizing s with
  | zero => exact h
  | succ k ih => exact ih (hv.substitute h)

/-- The lines of a text after the passes are its lines, each after the passes. -/
theorem OneLine.linesOf_passes (hv : OneLine es) (k : Nat) (s : List Char) :
    linesOf (Markup.passes es k s) = (linesOf s).map (Markup.passes es k) := by
  induction hlen : s.length using Nat.strong_induction_on generalizing s with
  | _ n ih =>
  subst hlen
  by_cases hm : '\n' ∈ s
  · obtain ⟨a, b, rfl, ha⟩ := List.eq_append_cons_of_mem hm
    rw [passes_break, linesOf_append, linesOf_append, List.map_append,
      ih b.length (by simp; omega) b rfl, linesOf_of_not_mem ha, linesOf_of_not_mem (hv.passes ha)]
    rfl
  · rw [linesOf_of_not_mem hm, linesOf_of_not_mem (hv.passes hm)]
    rfl

/-! ### The parts of a text -/

/-- What stands in a text before its document type block, the block, and what stands behind it. -/
structure Parts where
  before : List Char
  block : List Char
  behind : List Char

namespace Parts

/-- The parts of a text. The block is empty where there is none. -/
def of (s : List Char) : Parts :=
  match beforeBlock? s with
  | none => ⟨s, [], []⟩
  | some (before, rest) =>
    match blockEnd? false none rest with
    | none => ⟨s, [], []⟩
    | some (block, behind) => ⟨before, block, behind⟩

variable (p : Parts)

def text : List Char := p.before ++ (p.block ++ p.behind)

/-- The text with the block blanked out but for its line breaks. -/
def body : List Char := p.before ++ (breaks p.block ++ p.behind)

def entities : List Entity := declarations p.block

/-- What the passes make of a text. -/
def expansion (s : List Char) : List Char := (settle p.entities passLimit s).1

/-- A place in the text that is not in the block. -/
def IsOutside (i : Nat) : Prop :=
  i < p.before.length ∨ p.before.length + p.block.length ≤ i

/-- A line of the text that has no part of the block. -/
def IsOutsideLine (i : Nat) : Prop :=
  p.block = [] ∨ i < p.before.count '\n' ∨ p.before.count '\n' + p.block.count '\n' < i

theorem eq_of_beforeBlock? {s before rest : List Char} (h : beforeBlock? s = some (before, rest)) :
    s = before ++ rest := by
  induction s generalizing before with
  | nil => cases h
  | cons c s ih =>
    rw [beforeBlock?] at h
    split at h
    · cases h
      rfl
    · obtain ⟨⟨b, r⟩, hb, he⟩ := Option.map_eq_some_iff.1 h
      cases he
      rw [ih hb]
      rfl

theorem eq_of_blockEnd? {a : Bool} {q : Option Char} {s block rest : List Char}
    (h : blockEnd? a q s = some (block, rest)) : s = block ++ rest := by
  have hcons : ∀ {x : Option (List Char × List Char)} {c : Char} {cs b r : List Char},
      x.map (Prod.map (c :: ·) id) = some (b, r) →
      (∀ {b r}, x = some (b, r) → cs = b ++ r) → c :: cs = b ++ r := by
    intro x c cs b r hx hcs
    obtain ⟨⟨b', r'⟩, hb, he⟩ := Option.map_eq_some_iff.1 hx
    cases he
    rw [hcs hb]
    rfl
  fun_induction blockEnd? a q s generalizing block rest with
  | case1 => cases h
  | case6 => cases h; rfl
  | case8 => cases h
  | case9 a c cs hquote hopen hclose hend s hs body rest' hcut ih ih' =>
    obtain ⟨⟨b, r⟩, hb, he⟩ := Option.map_eq_some_iff.1 h
    cases he
    split at hs
    · rw [after?_eq_some_iff.1 hs, eq_of_cut? hcut, ih' hb]
      simp
    · cases hs
  | _ =>
    rename_i ih
    exact hcons h (ih _ _)

theorem text_of (s : List Char) : (of s).text = s := by
  unfold of
  split
  · simp [text]
  · next before rest hb =>
    split
    · simp [text]
    · next block behind he =>
      rw [eq_of_beforeBlock? hb, eq_of_blockEnd? he]
      rfl

theorem of_stripBlock {source : String} {text body : List Char} {es : List Entity}
    (h : stripBlock source text = .ok (body, es)) :
    body = (of text).body ∧ es = (of text).entities := by
  cases hb : beforeBlock? text with
  | none =>
    simp only [stripBlock, hb] at h
    cases h
    simp only [of, hb]
    exact ⟨by simp [Parts.body, breaks], by simp [entities, declarations]⟩
  | some cut =>
    obtain ⟨before, rest⟩ := cut
    simp only [stripBlock, hb] at h
    cases he : blockEnd? false none rest with
    | none =>
      simp only [he] at h
      cases h
    | some cut =>
      obtain ⟨block, behind⟩ := cut
      simp only [he] at h
      cases h
      simp only [of, hb, he]
      exact ⟨by simp [Parts.body, breaks], rfl⟩

@[simp] theorem count_breaks (block : List Char) :
    (breaks block).count '\n' = block.count '\n' := by
  rw [breaks, List.count_replicate_self]

/-- Outside of the block the lines of the text stay as they are when the block is blanked out. -/
theorem getElem?_linesOf_body {i : Nat} (h : p.IsOutsideLine i) :
    (linesOf p.body)[i]? = (linesOf p.text)[i]? := by
  obtain ⟨before, block, behind⟩ := p
  simp only [IsOutsideLine, body, text] at h ⊢
  rcases h with rfl | h | h
  · rfl
  · rw [getElem?_linesOf_left h, getElem?_linesOf_left h]
  · obtain ⟨j, rfl⟩ : ∃ j, i = (before ++ block).count '\n' + (j + 1) :=
      ⟨i - (before ++ block).count '\n' - 1, by rw [List.count_append]; omega⟩
    have hcount : (before ++ block).count '\n' = (before ++ breaks block).count '\n' := by simp
    rw [← List.append_assoc, ← List.append_assoc, getElem?_linesOf_right _ _ (by omega), hcount,
      getElem?_linesOf_right _ _ (by omega)]

end Parts

/-- A text is expanded line by line: the lines of the result are those of the text with its block
blanked out, each expanded by itself, so that there are as many as in the text, and outside of the
block they come from the lines of the text itself. -/
structure ExpandsByLine (text out : List Char) : Prop where
  lines : linesOf out = (linesOf (Parts.of text).body).map (Parts.of text).expansion
  length : (linesOf out).length = (linesOf text).length
  outside : ∀ i, (Parts.of text).IsOutsideLine i →
    (linesOf out)[i]? = (linesOf text)[i]?.map (Parts.of text).expansion

theorem expandsByLine {source : String} {text out : List Char}
    (h : expand source text = .ok out) (hv : OneLine (Parts.of text).entities) :
    ExpandsByLine text out := by
  obtain ⟨⟨body, es⟩, hs, -⟩ := Except.bind_eq_ok.1 h
  have hout := ((expand_eq_ok_iff hs).1 h).1
  obtain ⟨rfl, rfl⟩ := Parts.of_stripBlock hs
  have hexpansion : (Parts.of text).expansion = passes (Parts.of text).entities passLimit :=
    funext fun s => settle_fst passLimit s
  have hlines : linesOf out = (linesOf (Parts.of text).body).map (Parts.of text).expansion := by
    rw [hout, hexpansion, hv.linesOf_passes]
  refine ⟨hlines, ?_, fun i hi => ?_⟩
  · rw [hlines, List.length_map, length_linesOf, length_linesOf]
    conv_rhs => rw [← Parts.text_of text]
    simp [Parts.body, Parts.text]
  · rw [hlines, List.getElem?_map, Parts.getElem?_linesOf_body _ hi, Parts.text_of]

end Progression.Markup
