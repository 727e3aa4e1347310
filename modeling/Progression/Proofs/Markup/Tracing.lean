import Progression.Proofs.Markup.Lines

/-!
Where the characters of an expanded text stem from. Each character carries a place in the text that
is expanded: its own as long as it is kept, and that of the `&` of the reference where it is put in
with a value (`Traced.substitute`). Without the places this is the expansion (`text_trace`).
-/

namespace Progression.Markup

open Progression.Text

/-- The line of a place in a text. -/
def lineAt (s : List Char) (i : Nat) : Nat := lineAfter (s.take i)

/-- A text in which every character carries a place. -/
abbrev Traced := List (Char × Nat)

namespace Traced

def text (t : Traced) : List Char := t.map Prod.fst

@[simp] theorem text_append (t u : Traced) : (t ++ u).text = t.text ++ u.text := List.map_append

@[simp] theorem text_zipIdx (s : List Char) (n : Nat) : text (s.zipIdx n) = s :=
  List.zipIdx_map_fst n s

@[simp] theorem text_value (value : List Char) (i : Nat) : text (value.map (·, i)) = value := by
  simp [text, Function.comp_def]

/-- One pass. A value takes the place of the reference that it replaces. -/
def substitute (es : List Entity) : Traced → Traced
  | [] => []
  | (c, i) :: t =>
    if c = '&' then
      match reference? (text t) with
      | some (name, _) =>
        (match es.lookup name with
          | some value => value.map (·, i)
          | none => (c, i) :: t.take (name.length + 1)) ++ substitute es (t.drop (name.length + 1))
      | none => (c, i) :: substitute es t
    else (c, i) :: substitute es t
termination_by t => t.length
decreasing_by all_goals simp; try omega

variable {es : List Entity} {t : Traced}

theorem substitute_cons {c : Char} (h : c ≠ '&') (i : Nat) :
    substitute es ((c, i) :: t) = (c, i) :: substitute es t := by
  rw [substitute, if_neg h]

theorem substitute_amp (h : reference? (text t) = none) (i : Nat) :
    substitute es (('&', i) :: t) = ('&', i) :: substitute es t := by
  rw [substitute, if_pos rfl, h]

/-- The characters of a reference, and those behind it. -/
theorem exists_of_reference? {name rest : List Char} (h : reference? (text t) = some (name, rest)) :
    IsEntityName name ∧ ∃ r u, t = r ++ u ∧ text r = name ++ [';'] ∧ text u = rest ∧
      r.length = name.length + 1 := by
  obtain ⟨hn, ht⟩ := eq_of_reference? h
  have ht' : t.map Prod.fst = (name ++ [';']) ++ rest := by simpa [text] using ht
  obtain ⟨r, u, rfl, hr, hu⟩ := List.map_eq_append_iff.1 ht'
  refine ⟨hn, r, u, rfl, hr, hu, ?_⟩
  simpa using congrArg List.length hr

theorem substitute_reference {r : Traced} {name : List Char} (hn : IsEntityName name)
    (hr : text r = name ++ [';']) (i : Nat) :
    substitute es (('&', i) :: (r ++ t)) =
      ((es.lookup name).map fun value => value.map (·, i)).getD (('&', i) :: r) ++
        substitute es t := by
  have href : reference? (text (r ++ t)) = some (name, text t) := by
    rw [text_append, hr, List.append_assoc]
    exact reference?_append hn _
  have hlen : name.length + 1 = r.length := by simpa [text] using (congrArg List.length hr).symm
  rw [substitute, if_pos rfl, href]
  simp only [hlen, List.take_left, List.drop_left]
  cases es.lookup name <;> rfl

/-- The four ways in which a pass goes on, as an induction. -/
theorem substitute_induction {motive : Traced → Prop} (nil : motive [])
    (kept : ∀ c i t, c ≠ '&' → motive t → motive ((c, i) :: t))
    (amp : ∀ i t, reference? (text t) = none → motive t → motive (('&', i) :: t))
    (reference : ∀ i r t name, IsEntityName name → text r = name ++ [';'] → motive t →
      motive (('&', i) :: (r ++ t))) (t : Traced) : motive t := by
  induction hlen : t.length using Nat.strong_induction_on generalizing t with
  | _ n ih =>
  subst hlen
  match t with
  | [] => exact nil
  | (c, i) :: t =>
    by_cases hc : c = '&'
    · subst hc
      cases h : reference? (text t) with
      | none => exact amp i t h (ih _ (by simp) t rfl)
      | some p =>
        obtain ⟨hn, r, u, rfl, hr, -, -⟩ := exists_of_reference? h
        have hshort : u.length < (('&', i) :: (r ++ u)).length := by
          rw [List.length_cons, List.length_append]
          omega
        exact reference i r u p.1 hn hr (ih _ hshort u rfl)
    · exact kept c i t hc (ih _ (by simp) t rfl)

/-- Without the places it is the pass. -/
theorem text_substitute (t : Traced) : text (substitute es t) = Markup.substitute es (text t) := by
  induction t using substitute_induction with
  | nil => simp [text, substitute, Markup.substitute]
  | kept c i t hc ih =>
    rw [substitute_cons hc]
    exact (congrArg (c :: ·) ih).trans (Markup.substitute_cons hc _).symm
  | amp i t h ih =>
    rw [substitute_amp h]
    exact (congrArg ('&' :: ·) ih).trans (Markup.substitute_amp h).symm
  | reference i r t name hn hr ih =>
    have htext : text (('&', i) :: (r ++ t)) = '&' :: (name ++ ';' :: text t) := by
      rw [text, List.map_cons, ← text, text_append, hr]
      simp
    rw [substitute_reference hn hr, text_append, htext, Markup.substitute_reference hn, ih]
    cases es.lookup name with
    | none => rw [Option.map_none, Option.getD_none, Option.getD_none, ← hr]; rfl
    | some value => rw [Option.map_some, Option.getD_some, Option.getD_some, text_value]

theorem text_iterate (k : Nat) (t : Traced) :
    text ((substitute es)^[k] t) = passes es k (text t) := by
  induction k generalizing t with
  | zero => rfl
  | succ k ih => rw [Function.iterate_succ_apply, ih, text_substitute]; rfl

/-- A character behind a pass was there before it, or it comes with the value of an entity, and has
the place of the reference to it. -/
theorem mem_substitute {x : Char × Nat} (h : x ∈ substitute es t) : x ∈ t ∨
    ∃ a b name rest value, t = a ++ ('&', x.2) :: b ∧ reference? (text b) = some (name, rest) ∧
      es.lookup name = some value ∧ x.1 ∈ value := by
  have hmono : ∀ {s u : Traced}, (x ∈ u ∨ ∃ a b name rest value, u = a ++ ('&', x.2) :: b ∧
      reference? (text b) = some (name, rest) ∧ es.lookup name = some value ∧ x.1 ∈ value) →
      x ∈ s ++ u ∨ ∃ a b name rest value, s ++ u = a ++ ('&', x.2) :: b ∧
        reference? (text b) = some (name, rest) ∧ es.lookup name = some value ∧ x.1 ∈ value := by
    rintro s u (hx | ⟨a, b, name, rest, value, rfl, h⟩)
    · exact .inl (List.mem_append_right s hx)
    · exact .inr ⟨s ++ a, b, name, rest, value, (List.append_assoc _ _ _).symm, h⟩
  induction t using substitute_induction with
  | nil => simp [substitute] at h
  | kept c i t hc ih =>
    rw [substitute_cons hc] at h
    rcases List.mem_cons.1 h with rfl | h
    · exact .inl List.mem_cons_self
    · exact hmono (s := [(c, i)]) (ih h)
  | amp i t hnone ih =>
    rw [substitute_amp hnone] at h
    rcases List.mem_cons.1 h with rfl | h
    · exact .inl List.mem_cons_self
    · exact hmono (s := [('&', i)]) (ih h)
  | reference i r t name hn hr ih =>
    rw [substitute_reference hn hr] at h
    rcases List.mem_append.1 h with h | h
    · cases hl : es.lookup name with
      | none =>
        rw [hl] at h
        exact .inl (List.mem_append_left t h)
      | some value =>
        rw [hl] at h
        obtain ⟨c, hc, rfl⟩ := List.mem_map.1 h
        have href : reference? (text (r ++ t)) = some (name, text t) := by
          rw [text_append, hr, List.append_assoc]
          exact reference?_append hn _
        exact .inr ⟨[], r ++ t, name, text t, value, rfl, href, hl, hc⟩
    · exact hmono (s := ('&', i) :: r) (ih h)

/-! ### Lines of places -/

/-- The characters of a text that begins on a line are on the lines of their places. -/
def OnLines (line : Nat → Nat) : Nat → Traced → Prop
  | _, [] => True
  | l, (c, i) :: t => line i = l ∧ OnLines line (l + [c].count '\n') t

variable {line : Nat → Nat} {l : Nat}

theorem onLines_append (t u : Traced) : OnLines line l (t ++ u) ↔
    OnLines line l t ∧ OnLines line (l + (text t).count '\n') u := by
  induction t generalizing l with
  | nil => simp [OnLines, text]
  | cons x t ih =>
    have hcount : l + [x.1].count '\n' + (text t).count '\n' = l + (text (x :: t)).count '\n' := by
      rw [Nat.add_assoc, ← List.count_append]
      rfl
    rw [List.cons_append, OnLines, OnLines, ih, and_assoc, hcount]

/-- A value without line breaks stands on the line of the place that it takes. -/
theorem onLines_value {value : List Char} {i : Nat} (h : '\n' ∉ value) (hi : line i = l) :
    OnLines line l (value.map (·, i)) := by
  induction value with
  | nil => trivial
  | cons c value ih =>
    obtain ⟨hc, hvalue⟩ := List.ne_and_not_mem_of_not_mem_cons h
    refine ⟨hi, ?_⟩
    rw [List.count_eq_zero.2 (by simpa using hc)]
    exact ih hvalue

theorem OnLines.substitute (hv : OneLine es) (h : OnLines line l t) :
    OnLines line l (substitute es t) := by
  induction t using substitute_induction generalizing l with
  | nil => simpa [Traced.substitute] using h
  | kept c i t hc ih =>
    rw [substitute_cons hc]
    exact ⟨h.1, ih h.2⟩
  | amp i t hnone ih =>
    rw [substitute_amp hnone]
    exact ⟨h.1, ih h.2⟩
  | reference i r t name hn hr ih =>
    rw [substitute_reference hn hr]
    rw [← List.cons_append, onLines_append] at h
    obtain ⟨hhead, hrest⟩ := h
    have htext : text (('&', i) :: r) = '&' :: (name ++ [';']) := by
      rw [text, List.map_cons, ← text, hr]
    have hzero : (text (('&', i) :: r)).count '\n' = 0 := by
      rw [htext]
      exact List.count_eq_zero.2 (by simp [hn.break_not_mem])
    rw [hzero] at hrest
    rw [onLines_append]
    cases hl : es.lookup name with
    | none => exact ⟨hhead, by simpa [hzero] using ih hrest⟩
    | some value =>
      have hvalue := hv name value hl
      refine ⟨onLines_value hvalue hhead.1, ?_⟩
      rw [Option.map_some, Option.getD_some, text_value, List.count_eq_zero.2 hvalue]
      exact ih hrest

theorem OnLines.iterate (hv : OneLine es) (h : OnLines line l t) (k : Nat) :
    OnLines line l ((Traced.substitute es)^[k] t) := by
  induction k with
  | zero => exact h
  | succ k ih => rw [Function.iterate_succ_apply']; exact ih.substitute hv

theorem OnLines.line_eq (h : OnLines line l t) {k i : Nat} {c : Char} (hk : t[k]? = some (c, i)) :
    line i = l + ((text t).take k).count '\n' := by
  obtain ⟨hlt, hget⟩ := List.getElem?_eq_some_iff.1 hk
  rw [← List.take_append_drop k t, onLines_append, List.drop_eq_getElem_cons hlt, hget] at h
  rw [h.2.1, text, text, List.map_take]

/-- The places of a part of a text, or of some characters of it that include its line breaks. -/
theorem onLines_zipIdx (keep : Char → Bool) (hk : keep '\n' = true) (a s b : List Char) :
    OnLines (lineAt (a ++ (s ++ b))) (lineAfter a)
      ((s.zipIdx a.length).filter fun x => keep x.1) := by
  induction s generalizing a with
  | nil => trivial
  | cons c s ih =>
    have ih := ih (a ++ [c])
    have hassoc : a ++ [c] ++ (s ++ b) = a ++ (c :: s ++ b) := by simp
    have hline : lineAfter (a ++ [c]) = lineAfter a + [c].count '\n' := by
      rw [lineAfter, lineAfter, List.count_append, Nat.add_assoc]
    rw [hassoc, hline, List.length_append, List.length_singleton] at ih
    rw [List.zipIdx_cons, List.filter_cons]
    split
    · exact ⟨by rw [lineAt, List.take_left], ih⟩
    · next hc =>
      have hne : '\n' ≠ c := by
        rintro rfl
        exact hc hk
      rwa [List.count_eq_zero.2 (by simpa using hne)] at ih

end Traced

/-! ### The trace of an expansion -/

namespace Parts

variable (p : Parts)

/-- The text with the block blanked out, with its places. -/
def traced : Traced :=
  p.before.zipIdx ++ ((p.block.zipIdx p.before.length).filter (·.1 == '\n') ++
    p.behind.zipIdx (p.before.length + p.block.length))

/-- The expanded text with its places. -/
def trace : Traced := (Traced.substitute p.entities)^[passLimit] p.traced

/-- The `&` of a place begins a reference that one of the passes replaces by a value. -/
def IsReplaced (i : Nat) : Prop :=
  ∃ k < passLimit, ∃ a b name rest,
    (Traced.substitute p.entities)^[k] p.traced = a ++ ('&', i) :: b ∧
      reference? (Traced.text b) = some (name, rest) ∧ (p.entities.lookup name).isSome = true

/-- The origin of a character in an expanded text, a place outside of the block: the character
stands there, or the reference that it comes from. -/
structure StemsFrom (c : Char) (i : Nat) : Prop where
  outside : p.IsOutside i
  stands : p.text[i]? = some c ∨ p.text[i]? = some '&' ∧ p.IsReplaced i

theorem text_block : Traced.text ((p.block.zipIdx p.before.length).filter (·.1 == '\n')) =
    breaks p.block := by
  have hfilter : (Traced.text (p.block.zipIdx p.before.length)).filter (· == '\n') =
      breaks p.block := by
    rw [Traced.text_zipIdx, List.filter_beq]
    rfl
  rw [← hfilter, Traced.text, Traced.text, List.filter_map]
  rfl

theorem text_traced : Traced.text p.traced = p.body := by
  rw [traced, Traced.text_append, Traced.text_append, text_block, Traced.text_zipIdx,
    Traced.text_zipIdx, body]

/-- Blanking out the block keeps the lines of all places. -/
theorem onLines_traced : Traced.OnLines (lineAt p.text) 1 p.traced := by
  have hall : ∀ t : Traced, t = t.filter fun x => (fun _ => true) x.1 := by simp
  have hblock : Traced.text ((p.block.zipIdx p.before.length).filter (·.1 == '\n')) =
      breaks p.block := text_block p
  rw [traced, Traced.onLines_append, Traced.onLines_append, hblock, Traced.text_zipIdx,
    count_breaks]
  refine ⟨?_, ?_, ?_⟩
  · rw [hall p.before.zipIdx]
    exact Traced.onLines_zipIdx (fun _ => true) rfl [] p.before (p.block ++ p.behind)
  · exact Traced.onLines_zipIdx (· == '\n') (by decide) p.before p.block p.behind
  · have h := Traced.onLines_zipIdx (fun _ => true) rfl (p.before ++ p.block) p.behind []
    rw [lineAfter, List.count_append, List.length_append, List.append_nil, List.append_assoc,
      ← Nat.add_assoc, ← hall] at h
    exact h

/-- A character in a part of a text stands there. -/
theorem getElem?_of_mem_zipIdx {a s b : List Char} {c : Char} {i : Nat}
    (h : (c, i) ∈ s.zipIdx a.length) :
    (a ++ (s ++ b))[i]? = some c ∧ a.length ≤ i ∧ i < a.length + s.length := by
  obtain ⟨hle, hget⟩ := List.mk_mem_zipIdx_iff_le_and_getElem?_sub.1 h
  obtain ⟨hlt, -⟩ := List.getElem?_eq_some_iff.1 hget
  refine ⟨?_, hle, by omega⟩
  rw [List.getElem?_append_right hle, List.getElem?_append_left hlt, hget]

/-- Every character stands where its place is, and only line breaks have places in the block. -/
theorem stemsFrom_traced {c : Char} {i : Nat} (h : (c, i) ∈ p.traced) (hc : c ≠ '\n') :
    p.StemsFrom c i := by
  rw [traced, List.mem_append, List.mem_append, List.mem_filter] at h
  rcases h with h | ⟨-, hbreak⟩ | h
  · obtain ⟨hget, -, hlt⟩ := getElem?_of_mem_zipIdx (a := []) (b := p.block ++ p.behind) h
    exact ⟨.inl (by simpa using hlt), .inl hget⟩
  · exact absurd (eq_of_beq hbreak) hc
  · rw [← List.length_append] at h
    obtain ⟨hget, hle, -⟩ := getElem?_of_mem_zipIdx (b := []) h
    rw [List.length_append] at hle
    exact ⟨.inr hle, .inl (by simpa [text] using hget)⟩

/-- The characters of the text after some passes stem from places of the text. -/
theorem stemsFrom_iterate {k : Nat} (hk : k ≤ passLimit) {c : Char} {i : Nat}
    (h : (c, i) ∈ (Traced.substitute p.entities)^[k] p.traced) (hc : c ≠ '\n') :
    p.StemsFrom c i := by
  induction k generalizing c i with
  | zero => exact p.stemsFrom_traced h hc
  | succ k ih =>
    rw [Function.iterate_succ_apply'] at h
    rcases Traced.mem_substitute h with h | ⟨a, b, name, rest, value, ht, href, hl, -⟩
    · exact ih (by omega) h hc
    · have hamp := ih (by omega) (c := '&') (i := i) (by rw [ht]; simp) (by decide)
      have hreplaced : p.IsReplaced i := ⟨k, by omega, a, b, name, rest, ht, href, by simp [hl]⟩
      exact ⟨hamp.outside, .inr ⟨hamp.stands.elim id And.left, hreplaced⟩⟩

theorem text_trace : Traced.text p.trace = passes p.entities passLimit p.body := by
  rw [trace, Traced.text_iterate, text_traced]

end Parts

section Expansion

variable {source : String} {text out : List Char} (h : expand source text = .ok out)

include h

/-- Without its places, the trace of a text is what the text is expanded to. -/
theorem text_trace_of_expand : Traced.text (Parts.of text).trace = out := by
  obtain ⟨⟨body, es⟩, hs, -⟩ := Except.bind_eq_ok.1 h
  have hout := ((expand_eq_ok_iff hs).1 h).1
  obtain ⟨rfl, rfl⟩ := Parts.of_stripBlock hs
  rw [Parts.text_trace, hout]

/-- Every character of an expanded text stems from a place on its line. -/
theorem exists_stemsFrom (hv : OneLine (Parts.of text).entities) {k : Nat} {c : Char}
    (hk : out[k]? = some c) (hc : c ≠ '\n') :
    ∃ i, (Parts.of text).trace[k]? = some (c, i) ∧ (Parts.of text).StemsFrom c i ∧
      lineAt text i = lineAt out k := by
  have hout := text_trace_of_expand h
  rw [← hout, Traced.text, List.getElem?_map, Option.map_eq_some_iff] at hk
  obtain ⟨⟨_, i⟩, hget, rfl⟩ := hk
  have hline := ((Parts.of text).onLines_traced.iterate hv passLimit).line_eq hget
  rw [Parts.text_of, ← Parts.trace, hout] at hline
  exact ⟨i, hget, Parts.stemsFrom_iterate _ (Nat.le_refl _) (List.mem_of_getElem? hget) hc, hline⟩

end Expansion

end Progression.Markup
