import Progression.Proofs.Condition.Phrase

/-!
Conditions are read as they are written. `Spells` relates a condition to every text it can be
written as, at three levels: 0 for alternatives, 1 for conjunctions and 2 for all that binds
tighter. What a text needs to be read right, wherever it is put, is collected in `Reads`; each way
of writing a condition keeps it.
-/

namespace Progression.Condition

open Progression.Text

/-! ### How conditions are written -/

/-- Texts joined by a word in any letter case, with blanks on both sides of it. -/
inductive Joined (word : List Char) : List (List Char) → List Char → Prop
  | one (t : List Char) : Joined word [t] t
  | more {t g w g' u : List Char} {ts : List (List Char)} : Gap g → sameLetters w word = true →
    Gap g' → Joined word ts u → Joined word (t :: ts) (t ++ (g ++ (w ++ (g' ++ u))))

/-- A single word, and no keyword. -/
structure Bare (t : List Char) : Prop where
  ne_nil : t ≠ []
  solid : ∀ c ∈ t, isBlank c = false
  amp : '&' ∉ t
  balanced : Balanced t
  other : ∀ word ∈ ["or", "and", "not"], sameLetters t word.toList = false

/-- A single word that is read as itself. -/
structure Plain (t : List Char) : Prop extends Bare t where
  unknown : parse (String.ofList t) = .unknown (String.ofList t)

/-- The texts that a condition is written as, without escapes. -/
inductive Spells : Nat → Condition → List Char → Prop
  | literal {b : Bool} {t : List Char} :
    sameLetters t (if b then "true" else "false").toList = true → Spells 2 (.literal b) t
  | atom {x : Predicate} {t : List Char} : Predicate.Spelled x t → Spells 2 (.atom x) t
  | unknown {t : List Char} : Plain t → Spells 2 (.unknown (String.ofList t)) t
  | group {c : Condition} {p t q : List Char} : Pad p → Spells 0 c t → Pad q →
    Spells 2 c ('(' :: (p ++ t ++ q ++ [')']))
  | not {c : Condition} {n g t : List Char} : sameLetters n "not".toList = true → Gap g →
    Spells 2 c t → Spells 2 (.not c) (n ++ (g ++ t))
  | notGroup {c : Condition} {n t : List Char} : sameLetters n "not".toList = true →
    Spells 2 c t → t.head? = some '(' → Spells 2 (.not c) (n ++ t)
  | all {parts : List (Condition × List Char)} {t : List Char} : 2 ≤ parts.length →
    (∀ x ∈ parts, Spells 2 x.1 x.2) → Joined "and".toList (parts.map (·.2)) t →
    Spells 1 (.all (parts.map (·.1))) t
  | any {parts : List (Condition × List Char)} {t : List Char} : 2 ≤ parts.length →
    (∀ x ∈ parts, Spells 1 x.1 x.2) → Joined "or".toList (parts.map (·.2)) t →
    Spells 0 (.any (parts.map (·.1))) t
  | loosen {n : Nat} {c : Condition} {t : List Char} : Spells (n + 1) c t → Spells n c t

/-- A text in which some of the angle brackets are escaped. -/
inductive Escaped : List Char → List Char → Prop
  | nil : Escaped [] []
  | lt {t t' : List Char} : Escaped t t' → Escaped ('<' :: t) ("&lt;".toList ++ t')
  | gt {t t' : List Char} : Escaped t t' → Escaped ('>' :: t) ("&gt;".toList ++ t')
  | cons (c : Char) {t t' : List Char} : Escaped t t' → Escaped (c :: t) (c :: t')

/-! ### Escapes -/

theorem Escaped.refl (t : List Char) : Escaped t t := by
  induction t with
  | nil => exact .nil
  | cons c t ih => exact .cons c ih

theorem Escaped.append {t t' u u' : List Char} (h : Escaped t t') (h' : Escaped u u') :
    Escaped (t ++ u) (t' ++ u') := by
  induction h with
  | nil => exact h'
  | lt _ ih => exact .lt ih
  | gt _ ih => exact .gt ih
  | cons c _ ih => exact .cons c ih

/-- No escape begins with another character than its mark. -/
theorem replace_other {mark other s : List Char} {c : Char} (hm : mark.head? = some '&')
    (hc : '&' ≠ c) : replace mark other (c :: s) = c :: replace mark other s := by
  cases mark with
  | nil => cases hm
  | cons m mark =>
    cases hm
    exact replace_cons (by simp) (if_neg hc)

theorem replace_eq_self {mark other t : List Char} (hm : mark.head? = some '&') (ht : '&' ∉ t) :
    replace mark other t = t := by
  induction t with
  | nil => exact replace_nil (by rintro rfl; cases hm)
  | cons c t ih =>
    simp only [List.mem_cons, not_or] at ht
    rw [replace_other hm ht.1, ih ht.2]

theorem unescape_eq_self {t : List Char} (h : '&' ∉ t) : unescape t = t := by
  unfold unescape
  rw [replace_eq_self rfl h, replace_eq_self rfl h, replace_eq_self rfl h]

theorem Escaped.unescape {t t' : List Char} (h : Escaped t t') (ht : '&' ∉ t) :
    unescape t' = t := by
  suffices hr : replace "&gt;".toList ['>'] (replace "&lt;".toList ['<'] t') = t by
    rw [Condition.unescape, hr, replace_eq_self rfl ht]
  induction h with
  | nil => rw [replace_nil (by decide), replace_nil (by decide)]
  | lt _ ih =>
    have ht' := ih fun h => ht (.tail _ h)
    rw [replace_append (by decide), List.singleton_append, replace_other rfl (by decide), ht']
  | @gt t t' _ ih =>
    have ht' := ih fun h => ht (.tail _ h)
    have hlt : replace "&lt;".toList ['<'] ("&gt;".toList ++ t') =
        "&gt;".toList ++ replace "&lt;".toList ['<'] t' := by
      show replace "&lt;".toList ['<'] ('&' :: 'g' :: 't' :: ';' :: t') = _
      rw [replace_cons (by decide) rfl, replace_other rfl (by decide),
        replace_other rfl (by decide), replace_other rfl (by decide)]
      rfl
    rw [hlt, replace_append (by decide), ht']
    rfl
  | cons c _ ih =>
    simp only [List.mem_cons, not_or] at ht
    rw [replace_other rfl ht.1, replace_other rfl ht.1, ih ht.2]

/-! ### The reader, one case at a time -/

/-- The reader looks at the trimmed text only. -/
theorem ofText_eq (s : List Char) : ofText s =
    if 1 < (split "or".toList (trim s)).length then
      .any ((split "or".toList (trim s)).map ofText)
    else if 1 < (split "and".toList (trim s)).length then
      .all ((split "and".toList (trim s)).map ofText)
    else match negated? (trim s) with
      | some rest => .not (ofText rest)
      | none => match group? (trim s) with
        | some inner => ofText inner
        | none => leaf (trim s) := by
  rw [ofText]
  split
  · simp
  · split
    · simp
    · split
      · next hn => rw [hn]
      · next hn =>
        rw [hn]
        split
        · next hg => rw [hg]
        · next hg => rw [hg]

theorem ofText_congr {s t : List Char} (h : trim s = trim t) : ofText s = ofText t := by
  rw [ofText_eq, ofText_eq t, h]

/-! ### What is read right wherever it is put -/

/-- A text that keeps its words to itself, at whatever level it stands. -/
structure Sound (t : List Char) : Prop where
  edged : Edged t
  balanced : Balanced t
  inert : Inert t
  amp : '&' ∉ t

/-- A text that a condition is read from, with no connective in it that binds looser than its
level. -/
structure Reads (n : Nat) (c : Condition) (t : List Char) : Prop extends Sound t where
  free_or : 1 ≤ n → Free "or".toList 0 t
  free_and : 2 ≤ n → Free "and".toList 0 t
  read : ofText t = c

theorem Reads.loosen {n : Nat} {c : Condition} {t : List Char} (h : Reads (n + 1) c t) :
    Reads n c t :=
  { h with free_or := fun hn => h.free_or (by omega), free_and := fun hn => h.free_and (by omega) }

/-- A text without a connective outside its parentheses is read by its beginning. -/
theorem ofText_of_free {t : List Char} (he : Edged t) (hf : ∀ word, Keyword word → Free word 0 t) :
    ofText t = match negated? t with
      | some rest => .not (ofText rest)
      | none => match group? t with
        | some inner => ofText inner
        | none => leaf t := by
  rw [ofText_eq, trim_eq_self he, split_of_free (.inl rfl) (hf _ (.inl rfl)) he.2.2,
    split_of_free (.inr rfl) (hf _ (.inr rfl)) he.2.2]
  rfl

/-! ### Leaves -/

theorem Phrase.reads {c : Condition} {t : List Char} (h : Phrase 0 t 0) (hi : Inert t)
    (hn : afterWord? "not".toList t = none) (hg : t.head? ≠ some '(') (hl : leaf t = c) :
    Reads 2 c t where
  edged := h.edged
  balanced := h.depth
  inert := hi
  amp := h.amp
  free_or _ := h.free (.inl rfl)
  free_and _ := h.free (.inr rfl)
  read := by
    have hneg : negated? t = none := by rw [negated?, hn]
    have hgroup : group? t = none := by
      unfold group?
      split
      · exact absurd rfl hg
      · rfl
    rw [ofText_of_free h.edged fun word hk => h.free hk, hneg, hgroup]
    exact hl

theorem reads_literal {b : Bool} {t : List Char}
    (h : sameLetters t (if b then "true" else "false").toList = true) :
    Reads 2 (.literal b) t := by
  have hn : ∀ word ∈ ["or", "and", "not"], afterWord? word.toList t = none := by
    intro word hw
    rw [← List.append_nil t]
    refine afterWord?_eq_none h ?_
    simp only [List.mem_cons, List.not_mem_nil, or_false] at hw
    rcases hw with rfl | rfl | rfl <;> cases b <;> rfl
  have hw : ∀ c ∈ lower (if b then "true" else "false").toList, c.isAlpha = true := by
    cases b <;> decide
  have ht : Token 0 t 0 := token_letters h (by cases b <;> decide) hw 0
  refine Phrase.reads (.token ht) (.of_none (hn _ (by simp)) (hn _ (by simp))) (hn _ (by simp))
    (fun hg => ?_) ?_
  · cases isAsciiWordChar_of_letters h hw '(' (List.mem_of_mem_head? hg)
  · cases b with
    | true => exact if_pos h
    | false =>
      have hf : sameLetters t "true".toList = false := by
        unfold sameLetters
        rw [beq_iff_eq.1 h]
        decide
      unfold leaf
      rw [hf, if_neg Bool.false_ne_true]
      exact if_pos h

/-- How the spellings of predicates begin. -/
def frames : List String :=
  ["IsQuestCompleted", "HasQuest", "HasItem", "IsQuestAcceptQualified", "HqHasAtLeast",
    "NqHasAtLeast", "GetQuestStep", "Levels", "CurrentClassLevel", "ClassName"]

theorem exists_frame {x : Predicate} {t : List Char} (h : Predicate.Spelled x t) :
    ∃ f ∈ frames, ∃ r, t = f.toList ++ r := by
  cases h with
  | @unary name _ _ _ _ _ hm =>
    refine ⟨name, ?_, _, rfl⟩
    simp only [Predicate.unaries, List.mem_cons, Prod.mk.injEq, List.not_mem_nil, or_false] at hm
    rcases hm with ⟨rfl, -⟩ | ⟨rfl, -⟩ | ⟨rfl, -⟩ | ⟨rfl, -⟩ <;> decide
  | @binary name _ _ _ _ _ _ _ _ _ hm =>
    refine ⟨name, ?_, _, rfl⟩
    simp only [Predicate.binaries, List.mem_cons, Prod.mk.injEq, List.not_mem_nil, or_false] at hm
    rcases hm with ⟨rfl, -⟩ | ⟨rfl, -⟩ <;> decide
  | questStep => exact ⟨"GetQuestStep", by decide, '(' :: _, rfl⟩
  | level => exact ⟨"Levels", by decide, '[' :: _, rfl⟩
  | activeLevel => exact ⟨"CurrentClassLevel", by decide, _, rfl⟩
  | activeJob => exact ⟨"ClassName", by decide, _, rfl⟩

/-- No frame begins with a word of the conditions. -/
theorem afterWord?_frame {f : String} (hf : f ∈ frames) {word : String}
    (hw : word ∈ ["or", "and", "not", "true", "false"]) (r : List Char) :
    afterWord? word.toList (f.toList ++ r) = none := by
  simp only [frames, List.mem_cons, List.not_mem_nil, or_false] at hf hw
  rcases hf with rfl | rfl | rfl | rfl | rfl | rfl | rfl | rfl | rfl | rfl <;>
  rcases hw with rfl | rfl | rfl | rfl | rfl <;> rfl

theorem head?_frame {f : String} (hf : f ∈ frames) (r : List Char) :
    (f.toList ++ r).head? ≠ some '(' := by
  have h : ∀ f ∈ frames, f.toList ≠ [] ∧ f.toList.head? ≠ some '(' := by decide
  obtain ⟨hne, hc⟩ := h f hf
  obtain ⟨c, t, ht⟩ := List.exists_cons_of_ne_nil hne
  simpa [ht] using hc

theorem reads_atom {x : Predicate} {t : List Char} (h : Predicate.Spelled x t) :
    Reads 2 (.atom x) t := by
  have hread := Predicate.read?_of_spelled h
  have hp := phrase_of_spelled h
  obtain ⟨f, hf, r, rfl⟩ := exists_frame h
  have hn : ∀ word ∈ ["or", "and", "not", "true", "false"],
      afterWord? word.toList (f.toList ++ r) = none := fun _ hw => afterWord?_frame hf hw r
  have hne : ∀ word ∈ ["true", "false"], sameLetters (f.toList ++ r) word.toList = false := by
    intro word hw
    cases hs : sameLetters (f.toList ++ r) word.toList with
    | false => rfl
    | true =>
      have := afterWord?_append hs []
      rw [List.append_nil, hn word (List.mem_append_right ["or", "and", "not"] hw)] at this
      cases this
  refine hp.reads (.of_none (hn _ (by simp)) (hn _ (by simp))) (hn _ (by simp))
    (head?_frame hf r) ?_
  unfold leaf
  rw [hne _ (by simp), hne _ (by simp), hread]
  rfl

namespace Bare

variable {t : List Char} (h : Bare t)

include h

theorem clear : ∀ word ∈ ["or", "and", "not"], Clear word.toList t := by
  intro word hw rest hr
  obtain ⟨w, hw', rfl⟩ := eq_of_afterWord? hr
  cases rest with
  | nil =>
    have := h.other word hw
    rw [List.append_nil, hw'] at this
    cases this
  | cons c rest => exact ⟨c, rfl, isAsciiBlank_eq_false (h.solid c (by simp))⟩

theorem sound : Sound t where
  edged := edged_of_solid h.ne_nil h.solid
  balanced := h.balanced
  inert := by
    rintro word (rfl | rfl)
    · exact h.clear "or" (by simp)
    · exact h.clear "and" (by simp)
  amp := h.amp

theorem parse_eq : parse (String.ofList t) = ofText t := by
  rw [parse, String.toList_ofList, unescape_eq_self h.amp, trim_eq_self h.sound.edged]

/-- A word is plain when nothing in it is a negation, a group, a literal or a predicate. -/
theorem plain (hn : negated? t = none) (hg : group? t = none)
    (hl : leaf t = .unknown (String.ofList t)) : Plain t where
  toBare := h
  unknown := by
    rw [h.parse_eq, ofText_of_free h.sound.edged fun _ _ => .of_solid h.solid 0, hn, hg]
    exact hl

end Bare

theorem reads_unknown {t : List Char} (h : Plain t) : Reads 2 (.unknown (String.ofList t)) t where
  toSound := h.sound
  free_or _ := .of_solid h.solid 0
  free_and _ := .of_solid h.solid 0
  read := by rw [← h.parse_eq, h.unknown]

/-! ### Groups and negations -/

theorem edged_group (t : List Char) : Edged ('(' :: (t ++ [')'])) :=
  (edged_of_solid (t := ['(']) (by decide) (by decide)).append
    (edged_of_solid (t := [')']) (by decide) (by decide)) t

theorem Balanced.group {t : List Char} (h : Balanced t) : Balanced ('(' :: (t ++ [')'])) := by
  show depth? 1 (t ++ [')']) = some 0
  have hin : depth? 1 t = some 1 := depth?_add h 1
  rw [depth?_append, hin]
  rfl

/-- Parentheses around a text with parentheses of its own do not change what is read. -/
theorem ofText_group {t : List Char} (h : Balanced t) : ofText ('(' :: (t ++ [')'])) = ofText t := by
  rw [ofText_of_free (edged_group t) fun _ _ => .group h, group?_of_balanced h]
  rfl

theorem Reads.group {n : Nat} {c : Condition} {p t q : List Char} (hp : Pad p) (h : Reads n c t)
    (hq : Pad q) : Reads 2 c ('(' :: (p ++ t ++ q ++ [')'])) := by
  have hb : Balanced (p ++ t ++ q) := by
    have := h.balanced
    unfold Balanced at *
    rw [depth?_append, depth?_append, depth?_pad hp, Option.bind_some, this, Option.bind_some,
      depth?_pad hq]
  have hs : Sound ('(' :: (p ++ t ++ q ++ [')'])) := by
    refine ⟨edged_group _, hb.group, .of_head (by decide) _, ?_⟩
    simp only [List.mem_cons, List.mem_append, not_or]
    exact ⟨by decide, ⟨⟨hp.amp, h.amp⟩, hq.amp⟩, by simp⟩
  refine { hs with free_or := fun _ => .group hb, free_and := fun _ => .group hb, read := ?_ }
  rw [ofText_group hb, ← h.read]
  exact ofText_congr (by rw [trim_pad hp h.edged hq, trim_eq_self h.edged])

/-- What is put behind a word that is no keyword. -/
theorem Free.negate {word w g t : List Char} (hk : Keyword word)
    (hw : sameLetters w "not".toList = true) (hg : Pad g) (he : Edged t) (hc : Clear word t)
    (h : Free word 0 t) : Free word 0 (w ++ (g ++ t)) := by
  have htoken : Token 0 w 0 := token_letters hw (by decide) (by decide) 0
  refine .solid htoken.solid ?_
  rw [Balanced.foldl htoken.depth]
  exact .pad hk hg he hc h

theorem Reads.negate {c : Condition} {w g t : List Char} (hw : sameLetters w "not".toList = true)
    (hg : Pad g) (h : Reads 2 c t) (hn : negated? (w ++ (g ++ t)) = some t) :
    Reads 2 (.not c) (w ++ (g ++ t)) := by
  have htoken : Token 0 w 0 := token_letters hw (by decide) (by decide) 0
  have hf : ∀ word, Keyword word → Free word 0 (w ++ (g ++ t)) := by
    intro word hk
    refine .negate hk hw hg h.edged (h.inert word hk) ?_
    rcases hk with rfl | rfl
    · exact h.free_or (by omega)
    · exact h.free_and (by omega)
  have hs : Sound (w ++ (g ++ t)) := by
    refine ⟨?_, ?_, ?_, ?_⟩
    · exact (edged_of_solid htoken.ne_nil htoken.solid).append h.edged g
    · have := h.balanced
      unfold Balanced at *
      rw [depth?_append, htoken.depth, Option.bind_some, depth?_append, depth?_pad hg,
        Option.bind_some, this]
    · exact .of_none (afterWord?_eq_none hw rfl) (afterWord?_eq_none hw rfl)
    · simp only [List.mem_append, not_or]
      exact ⟨htoken.amp, hg.amp, h.amp⟩
  refine { hs with
    free_or := fun _ => hf _ (.inl rfl), free_and := fun _ => hf _ (.inr rfl), read := ?_ }
  rw [ofText_of_free hs.edged hf, hn]
  exact congrArg _ h.read

theorem negated?_gap {w g t : List Char} (hw : sameLetters w "not".toList = true) (hg : Gap g)
    (he : Edged t) : negated? (w ++ (g ++ t)) = some t := by
  have ht := trimLeft_pad hg.pad he
  unfold negated?
  rw [afterWord?_append hw]
  obtain ⟨b, g, rfl⟩ := List.exists_cons_of_ne_nil hg.1
  rw [List.cons_append] at ht ⊢
  simp only [hg.2 b (by simp), Bool.true_or, if_true, ht]

theorem reads_not {c : Condition} {w g t : List Char} (hw : sameLetters w "not".toList = true)
    (hg : Gap g) (h : Reads 2 c t) : Reads 2 (.not c) (w ++ (g ++ t)) :=
  h.negate hw hg.pad (negated?_gap hw hg h.edged)

theorem reads_notGroup {c : Condition} {w t : List Char} (hw : sameLetters w "not".toList = true)
    (h : Reads 2 c t) (hh : t.head? = some '(') : Reads 2 (.not c) (w ++ t) := by
  refine h.negate (g := []) hw .nil ?_
  have ht := trimLeft_pad .nil h.edged
  unfold negated?
  rw [afterWord?_append hw]
  cases t with
  | nil => cases hh
  | cons b t =>
    cases hh
    simpa using ht

/-! ### Connectives -/

theorem token_keyword {word w : List Char} (hk : Keyword word) (hw : sameLetters w word = true)
    (d : Nat) : Token d w d := by
  rcases hk with rfl | rfl
  · exact token_letters hw (by decide) (by decide) d
  · exact token_letters hw (by decide) (by decide) d

theorem Joined.sound {word : List Char} (hk : Keyword word) {ts : List (List Char)} {u : List Char}
    (h : Joined word ts u) (hts : ∀ t ∈ ts, Sound t) : Sound u := by
  induction h with
  | one t => exact hts t (by simp)
  | @more t g w g' u ts hg hw hg' _ ih =>
    have ht := hts t (by simp)
    have hu := ih fun t h => hts t (by simp [h])
    have hw' := token_keyword hk hw 0
    refine ⟨?_, ?_, fun word' hk' => ?_, ?_⟩
    · simpa using ht.edged.append hu.edged (g ++ (w ++ g'))
    · have h1 : depth? 0 t = some 0 := ht.balanced
      have h2 : depth? 0 u = some 0 := hu.balanced
      unfold Balanced
      simp only [depth?_append, h1, h2, hw'.depth, depth?_pad hg.pad, depth?_pad hg'.pad,
        Option.bind_some]
    · exact (ht.inert word' hk').append hk' ht.edged.1 (hg.head _)
    · simp only [List.mem_append, not_or]
      exact ⟨ht.amp, hg.pad.amp, hw'.amp, hg'.pad.amp, hu.amp⟩

theorem Joined.split {word : List Char} (hk : Keyword word) {ts : List (List Char)}
    {u : List Char} (h : Joined word ts u) (hts : ∀ t ∈ ts, Sound t ∧ Free word 0 t) :
    split word u = ts := by
  induction h with
  | one t => exact split_of_free hk (hts t (by simp)).2 (hts t (by simp)).1.edged.2.2
  | @more t g w g' u ts hg hw hg' hu ih =>
    obtain ⟨ht, hf⟩ := hts t (by simp)
    have hts' : ∀ t ∈ ts, Sound t ∧ Free word 0 t := fun t h => hts t (by simp [h])
    have hs := hu.sound hk fun t h => (hts' t h).1
    rw [split_append hk hf ht.edged.2.2 ht.balanced hg hw hg' hs.edged, ih hts']

/-- A conjunction has no alternative outside the parentheses of its parts. -/
theorem Free.and_append {t g w g' u : List Char} (h : Free "or".toList 0 t) (he : Edged t)
    (hb : Balanced t) (hg : Gap g) (hw : sameLetters w "and".toList = true) (hg' : Gap g')
    (he' : Edged u) (hc : Clear "or".toList u) (h' : Free "or".toList 0 u) :
    Free "or".toList 0 (t ++ (g ++ (w ++ (g' ++ u)))) := by
  have ho : Keyword "or".toList := .inl rfl
  have hw' := token_keyword (.inr rfl) hw 0
  have hedged := (edged_of_solid hw'.ne_nil hw'.solid).append he' g'
  refine .append ho h he.2.2 (hg.head _) ?_
  rw [hb.foldl]
  refine .pad ho hg.pad hedged (.of_none (afterWord?_eq_none hw rfl)) (.solid hw'.solid ?_)
  rw [Balanced.foldl hw'.depth]
  exact .pad ho hg'.pad he' hc h'

theorem Joined.free_or {ts : List (List Char)} {u : List Char} (h : Joined "and".toList ts u)
    (hts : ∀ t ∈ ts, Sound t ∧ Free "or".toList 0 t) : Free "or".toList 0 u := by
  have ho : Keyword "or".toList := .inl rfl
  have ha : Keyword "and".toList := .inr rfl
  induction h with
  | one t => exact (hts t (by simp)).2
  | @more t g w g' u ts hg hw hg' hu ih =>
    obtain ⟨ht, hf⟩ := hts t (by simp)
    have hts' : ∀ t ∈ ts, Sound t ∧ Free "or".toList 0 t := fun t h => hts t (by simp [h])
    have hs := hu.sound ha fun t h => (hts' t h).1
    exact .and_append hf ht.edged ht.balanced hg hw hg' hs.edged (hs.inert _ ho) (ih hts')

/-! ### Conditions -/

theorem map_ofText {n : Nat} {parts : List (Condition × List Char)}
    (hp : ∀ x ∈ parts, Reads n x.1 x.2) : (parts.map (·.2)).map ofText = parts.map (·.1) := by
  rw [List.map_map]
  exact List.map_congr_left fun x hx => (hp x hx).read

theorem reads_any {parts : List (Condition × List Char)} {t : List Char}
    (hl : 2 ≤ parts.length) (hp : ∀ x ∈ parts, Reads 1 x.1 x.2)
    (ht : Joined "or".toList (parts.map (·.2)) t) : Reads 0 (.any (parts.map (·.1))) t := by
  have hts : ∀ t ∈ parts.map (·.2), Sound t ∧ Free "or".toList 0 t := by
    intro t hm
    obtain ⟨x, hx, rfl⟩ := List.mem_map.1 hm
    exact ⟨(hp x hx).toSound, (hp x hx).free_or (by omega)⟩
  have hs := ht.sound (.inl rfl) fun t h => (hts t h).1
  refine { hs with free_or := fun h => by omega, free_and := fun h => by omega, read := ?_ }
  rw [ofText_eq, trim_eq_self hs.edged, ht.split (.inl rfl) hts,
    if_pos (by simpa only [List.length_map]), map_ofText hp]

theorem reads_all {parts : List (Condition × List Char)} {t : List Char}
    (hl : 2 ≤ parts.length) (hp : ∀ x ∈ parts, Reads 2 x.1 x.2)
    (ht : Joined "and".toList (parts.map (·.2)) t) : Reads 1 (.all (parts.map (·.1))) t := by
  have hts : ∀ word, Keyword word → ∀ t ∈ parts.map (·.2), Sound t ∧ Free word 0 t := by
    intro word hk t hm
    obtain ⟨x, hx, rfl⟩ := List.mem_map.1 hm
    refine ⟨(hp x hx).toSound, ?_⟩
    rcases hk with rfl | rfl
    · exact (hp x hx).free_or (by omega)
    · exact (hp x hx).free_and (by omega)
  have hs := ht.sound (.inr rfl) fun t h => (hts _ (.inr rfl) t h).1
  have hf := ht.free_or (hts _ (.inl rfl))
  refine { hs with free_or := fun _ => hf, free_and := fun h => by omega, read := ?_ }
  rw [ofText_eq, trim_eq_self hs.edged, split_of_free (.inl rfl) hf hs.edged.2.2,
    if_neg (by simp), ht.split (.inr rfl) (hts _ (.inr rfl)),
    if_pos (by simpa only [List.length_map]), map_ofText hp]

theorem reads_of_spells {n : Nat} {c : Condition} {t : List Char} (h : Spells n c t) :
    Reads n c t := by
  induction h with
  | literal h => exact reads_literal h
  | atom h => exact reads_atom h
  | unknown h => exact reads_unknown h
  | group hp _ hq ih => exact ih.group hp hq
  | not hw hg _ ih => exact reads_not hw hg ih
  | notGroup hw _ hh ih => exact reads_notGroup hw ih hh
  | all hl _ ht ih => exact reads_all hl ih ht
  | any hl _ ht ih => exact reads_any hl ih ht
  | loosen _ ih => exact ih.loosen

theorem Reads.parse {n : Nat} {c : Condition} {p t q t' : List Char} (hr : Reads n c t)
    (hp : Pad p) (hq : Pad q) (he : Escaped (p ++ t ++ q) t') : parse (String.ofList t') = c := by
  have hamp : '&' ∉ p ++ t ++ q := by
    simp only [List.mem_append, not_or]
    exact ⟨⟨hp.amp, hr.amp⟩, hq.amp⟩
  rw [Condition.parse, String.toList_ofList, he.unescape hamp, trim_pad hp hr.edged hq, hr.read]

/-- A condition is read from every text that it can be written as. -/
theorem parse_of_spells {c : Condition} {p t q t' : List Char} (h : Spells 0 c t) (hp : Pad p)
    (hq : Pad q) (he : Escaped (p ++ t ++ q) t') : parse (String.ofList t') = c :=
  (reads_of_spells h).parse hp hq he

/-- A condition with all three connectives in it, blanks in its predicate and an escape. -/
theorem parse_of_spells_all :
    parse " not (HasQuest( 3 ) or TRUE) AND x&lt;4" =
      .all [.not (.any [.atom (.hasQuest 3), .literal true]), .unknown "x<4"] := by
  have hgap : Gap [' '] := ⟨by decide, by decide⟩
  have hatom : Spells 2 (.atom (.hasQuest 3)) "HasQuest( 3 )".toList :=
    .atom (.unary (p := [' ']) (d := ['3']) (q := [' ']) (.tail _ (.head _)) hgap.pad
      ⟨by decide, by decide, rfl⟩ hgap.pad)
  have hplain : Plain "x<4".toList :=
    Bare.plain ⟨by decide, by decide, by decide, rfl, by decide⟩ rfl rfl rfl
  have hparts : ∀ x ∈ [(Condition.atom (.hasQuest 3), "HasQuest( 3 )".toList),
      (.literal true, "TRUE".toList)], Spells 1 x.1 x.2 := by
    simp only [List.forall_mem_cons, List.not_mem_nil, false_implies, implies_true, and_true]
    exact ⟨.loosen hatom, .loosen (.literal (by decide))⟩
  have hany := Spells.any (by decide) hparts
    (.more hgap (w := "or".toList) (by decide) hgap (.one _))
  have hnot : Spells 2 (.not (.any [.atom (.hasQuest 3), .literal true]))
      "not (HasQuest( 3 ) or TRUE)".toList :=
    .not (n := "not".toList) (by decide) hgap (.group .nil hany .nil)
  have hparts' : ∀ x ∈ [(Condition.not (.any [.atom (.hasQuest 3), .literal true]),
      "not (HasQuest( 3 ) or TRUE)".toList), (.unknown "x<4", "x<4".toList)],
        Spells 2 x.1 x.2 := by
    simp only [List.forall_mem_cons, List.not_mem_nil, false_implies, implies_true, and_true]
    exact ⟨hnot, .unknown hplain⟩
  have hall := Spells.all (by decide) hparts'
    (.more hgap (w := "AND".toList) (by decide) hgap (.one _))
  exact parse_of_spells (.loosen hall) hgap.pad .nil
    (.append (.refl " not (HasQuest( 3 ) or TRUE) AND x".toList) (.lt (.refl ['4'])))

end Progression.Condition
