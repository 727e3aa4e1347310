import Progression.Markup.Entity
import Progression.Proofs.Markup.Reference

/-!
Document type blocks as they are written. The search for the end of a block is followed piece by
piece (`Passed`), and so is the search for the declarations in it (`Yields`); a block that declares
entities, and nothing else between its brackets, is blanked out and its entities are found.
-/

namespace Progression.Markup

open Progression.Text

/-! ### Names -/

/-- A character behind the first one of a name. -/
def isEntityPart (c : Char) : Bool := isWordChar c || c == '.' || c == '-'

/-- A name of an entity. -/
def IsEntityName (name : List Char) : Prop :=
  ∃ c cs, name = c :: cs ∧ (isAsciiLetter c || c == '_') = true ∧ ∀ d ∈ cs, isEntityPart d = true

theorem IsEntityName.not_mem {name : List Char} (h : IsEntityName name) {x : Char}
    (hx : isEntityPart x = false) (hx' : (isAsciiLetter x || x == '_') = false) : x ∉ name := by
  obtain ⟨c, cs, rfl, hc, hcs⟩ := h
  intro hm
  rcases List.mem_cons.1 hm with rfl | hm
  · rw [hc] at hx'
    cases hx'
  · rw [hcs x hm] at hx
    cases hx

theorem entityName?_append {name r : List Char} (h : IsEntityName name)
    (hr : ∀ c ∈ r.head?, isEntityPart c = false) : entityName? (name ++ r) = some (name, r) := by
  obtain ⟨c, cs, rfl, hc, hcs⟩ := h
  have ht : r.takeWhile isEntityPart = [] ∧ r.dropWhile isEntityPart = r := by
    cases r with
    | nil => exact ⟨rfl, rfl⟩
    | cons d r => simp [hr d rfl]
  rw [List.cons_append, entityName?, if_pos hc]
  show some (c :: (cs ++ r).takeWhile isEntityPart, (cs ++ r).dropWhile isEntityPart) = _
  rw [List.takeWhile_append_of_pos hcs, List.dropWhile_append_of_pos hcs, ht.1, ht.2,
    List.append_nil]

/-- The blanks by their code points. -/
def blankPoints : List Nat :=
  [0x9, 0xA, 0xB, 0xC, 0xD, 0x20, 0x85, 0xA0, 0x1680, 0x2000, 0x2001, 0x2002, 0x2003, 0x2004, 0x2005,
    0x2006, 0x2007, 0x2008, 0x2009, 0x200A, 0x2028, 0x2029, 0x202F, 0x205F, 0x3000]

theorem mem_blankPoints {c : Char} (h : isBlank c = true) : c.toNat ∈ blankPoints := by
  simp only [isBlank, Bool.or_eq_true, Bool.and_eq_true, decide_eq_true_eq, beq_iff_eq] at h
  simp only [blankPoints, List.mem_cons, List.not_mem_nil, or_false]
  omega

/-- No blank is a part of a name. -/
theorem isEntityPart_of_isBlank {c : Char} (h : isBlank c = true) : isEntityPart c = false := by
  have hall : ∀ n ∈ blankPoints, isEntityPart (Char.ofNat n) = false := by decide +kernel
  have := hall _ (mem_blankPoints h)
  rwa [Char.ofNat_toNat] at this

theorem afterBlanks?_append {g r : List Char} (hg : Pad g) (hne : g ≠ [])
    (hr : ∀ c ∈ r.head?, isBlank c = false) : afterBlanks? (g ++ r) = some r := by
  obtain ⟨c, g, rfl⟩ := List.exists_cons_of_ne_nil hne
  obtain ⟨hc, hg⟩ := List.forall_mem_cons.1 hg
  rw [List.cons_append, afterBlanks?, if_pos hc, trimLeft_append hg hr]

/-! ### The end of a block -/

/-- The characters that mean something in a block. -/
def marks : List Char := ['"', '\'', '[', ']', '<', '>']

/-- A text that is passed on the way to the end of a block, from outside or inside of the brackets
to outside or inside of them. -/
def Passed (inside : Bool) (s : List Char) (inside' : Bool) : Prop :=
  ∀ r, blockEnd? inside none (s ++ r) = (blockEnd? inside' none r).map fun p => (s ++ p.1, p.2)

namespace Passed

variable {a b c : Bool} {s t : List Char}

theorem nil : Passed a [] a := by intro r; simp

theorem append (h : Passed a s b) (h' : Passed b t c) : Passed a (s ++ t) c := by
  intro r
  rw [List.append_assoc, h, h', Option.map_map]
  simp [Function.comp_def]

end Passed

theorem blockEnd?_quoted {a : Bool} {q : Char} {v : List Char} (hv : q ∉ v) (r : List Char) :
    blockEnd? a (some q) (v ++ q :: r) =
      (blockEnd? a none r).map fun p => (v ++ q :: p.1, p.2) := by
  induction v with
  | nil =>
    rw [List.nil_append, blockEnd?]
    simp
  | cons c v ih =>
    obtain ⟨hc, hv⟩ := List.ne_and_not_mem_of_not_mem_cons hv
    rw [List.cons_append, blockEnd?]
    simp [Ne.symm hc, ih hv, Function.comp_def]

theorem blockEnd?_step {a : Bool} {x : Char} {r : List Char} (hq : x ≠ '"' ∧ x ≠ '\'')
    (ho : a = false → x ≠ '[' ∧ x ≠ '>')
    (hi : a = true → x ≠ ']' ∧ after? "<!--".toList (x :: r) = none) :
    blockEnd? a none (x :: r) = (blockEnd? a none r).map fun p => (x :: p.1, p.2) := by
  rw [blockEnd?]
  cases a with
  | false =>
    obtain ⟨h1, h2⟩ := ho rfl
    simp [hq, h1, h2]
  | true =>
    obtain ⟨h1, h2⟩ := hi rfl
    simp [hq, h1]
    split
    · rfl
    · next h => cases h2.symm.trans h

namespace Passed

variable {s : List Char}

/-- Outside of the brackets, everything but quotes, a bracket and the end is passed. -/
theorem outside (h : ∀ x ∈ s, x ∉ ['"', '\'', '[', '>']) : Passed false s false := by
  induction s with
  | nil => exact nil
  | cons x s ih =>
    obtain ⟨hx, hs⟩ := List.forall_mem_cons.1 h
    simp only [List.mem_cons, List.not_mem_nil, or_false, not_or] at hx
    refine append (s := [x]) (b := false) ?_ (ih hs)
    exact fun r => blockEnd?_step ⟨hx.1, hx.2.1⟩ (fun _ => hx.2.2) (fun h => by cases h)

/-- Inside of the brackets, everything but quotes, a bracket and the beginning of a comment is
passed. -/
theorem inside (h : ∀ x ∈ s, x ∉ ['"', '\'', ']', '<']) : Passed true s true := by
  induction s with
  | nil => exact nil
  | cons x s ih =>
    obtain ⟨hx, hs⟩ := List.forall_mem_cons.1 h
    simp only [List.mem_cons, List.not_mem_nil, or_false, not_or] at hx
    refine append (s := [x]) (b := true) ?_ (ih hs)
    refine fun r => blockEnd?_step ⟨hx.1, hx.2.1⟩ (fun h => by cases h) fun _ => ⟨hx.2.2.1, ?_⟩
    simp [after?, Ne.symm hx.2.2.2]

/-- What is no mark is passed outside and inside. -/
theorem plain {a : Bool} (h : ∀ x ∈ s, x ∉ marks) : Passed a s a := by
  have hsub : ['"', '\'', '[', '>'] ⊆ marks ∧ ['"', '\'', ']', '<'] ⊆ marks := by decide
  cases a with
  | false => exact outside fun x hx hm => h x hx (hsub.1 hm)
  | true => exact inside fun x hx hm => h x hx (hsub.2 hm)

theorem quoted {a : Bool} {q : Char} {v : List Char} (hq : q = '"' ∨ q = '\'') (hv : q ∉ v) :
    Passed a (q :: (v ++ [q])) a := by
  intro r
  have h := blockEnd?_quoted (a := a) hv r
  rw [List.cons_append, List.append_assoc, List.singleton_append, blockEnd?]
  simp [hq, h, Function.comp_def]

theorem opening : Passed false ['['] true := by
  intro r
  rw [List.singleton_append, blockEnd?]
  simp

theorem closing : Passed true [']'] false := by
  intro r
  rw [List.singleton_append, blockEnd?]
  simp

end Passed

/-- The end of a block is found behind what is passed. -/
theorem Passed.blockEnd? {s : List Char} (h : Passed false s false) (r : List Char) :
    blockEnd? false none (s ++ '>' :: r) = some (s ++ ['>'], r) := by
  rw [h, Markup.blockEnd?]
  simp

/-! ### Blocks as they are written -/

/-- A declaration of an entity. -/
inductive DeclarationText : Entity → List Char → Prop
  | mk {name value g g' p : List Char} {q : Char} : IsEntityName name → Pad g → g ≠ [] → Pad g' →
    g' ≠ [] → q = '"' ∨ q = '\'' → q ∉ value → Pad p →
    DeclarationText (name, value)
      ("<!ENTITY".toList ++ (g ++ (name ++ (g' ++ q :: (value ++ q :: (p ++ ['>']))))))

/-- A declaration as it is passed on the way to the end of a block: its name is any text without
marks. -/
inductive DeclarationForm : List Char → Prop
  | mk {name value g g' p : List Char} {q : Char} : (∀ c ∈ name, c ∉ marks) → Pad g → Pad g' →
    q = '"' ∨ q = '\'' → q ∉ value → Pad p →
    DeclarationForm
      ("<!ENTITY".toList ++ (g ++ (name ++ (g' ++ q :: (value ++ q :: (p ++ ['>']))))))

/-- What stands between the brackets: declarations and blanks. -/
inductive SubsetText : List Entity → List Char → Prop
  | nil : SubsetText [] []
  | blank {es : List Entity} {c : Char} {s : List Char} : isBlank c = true → SubsetText es s →
    SubsetText es (c :: s)
  | declaration {e : Entity} {es : List Entity} {d s : List Char} : DeclarationText e d →
    SubsetText es s → SubsetText (e :: es) (d ++ s)

/-- What stands between the opening of a block and its brackets: a name and quoted texts. -/
inductive HeadingText : List Char → Prop
  | nil : HeadingText []
  | char {c : Char} {s : List Char} : c ∉ ['"', '\'', '[', '>'] → HeadingText s →
    HeadingText (c :: s)
  | quoted {q : Char} {v s : List Char} : q = '"' ∨ q = '\'' → q ∉ v → HeadingText s →
    HeadingText (q :: (v ++ q :: s))

theorem not_mem_marks_of_isBlank {c : Char} (h : isBlank c = true) : c ∉ marks := by
  intro hm
  have hall : ∀ x ∈ marks, isBlank x = false := by decide
  rw [hall c hm] at h
  cases h

theorem Pad.not_mem_marks {p : List Char} (h : Pad p) : ∀ c ∈ p, c ∉ marks :=
  fun c hc => not_mem_marks_of_isBlank (h c hc)

theorem IsEntityName.not_mem_marks {name : List Char} (h : IsEntityName name) :
    ∀ c ∈ name, c ∉ marks := by
  have hpart : ∀ x ∈ marks, isEntityPart x = false := by decide
  have hstart : ∀ x ∈ marks, (isAsciiLetter x || x == '_') = false := by decide
  exact fun c hc hm => h.not_mem (hpart c hm) (hstart c hm) hc

theorem DeclarationForm.passed {d : List Char} (h : DeclarationForm d) : Passed true d true := by
  cases h with
  | @mk name value g g' p q hn hg hg' hq hv hp =>
    have hopen : Passed true "<!ENTITY".toList true := by
      intro r
      have h := Passed.plain (a := true) (s := "!ENTITY".toList) (by decide) r
      have hstep := blockEnd?_step (a := true) (x := '<') (r := "!ENTITY".toList ++ r)
        (by decide) (by simp) (by simp [after?])
      rw [h] at hstep
      simpa [Function.comp_def] using hstep
    have hend : Passed true (p ++ ['>']) true :=
      (Passed.plain (Pad.not_mem_marks hp)).append (.inside (by decide))
    have h := hopen.append ((Passed.plain (Pad.not_mem_marks hg)).append
      ((Passed.plain hn).append ((Passed.plain (Pad.not_mem_marks hg')).append
        ((Passed.quoted hq hv).append hend))))
    simpa using h

theorem DeclarationText.form {e : Entity} {d : List Char} (h : DeclarationText e d) :
    DeclarationForm d := by
  cases h with
  | mk hn hg _ hg' _ hq hv hp => exact .mk hn.not_mem_marks hg hg' hq hv hp

theorem DeclarationText.passed {e : Entity} {d : List Char} (h : DeclarationText e d) :
    Passed true d true := h.form.passed

theorem SubsetText.passed {es : List Entity} {s : List Char} (h : SubsetText es s) :
    Passed true s true := by
  induction h with
  | nil => exact .nil
  | blank hc _ ih => exact .append (s := [_]) (.plain (by simpa using not_mem_marks_of_isBlank hc)) ih
  | declaration hd _ ih => exact hd.passed.append ih

theorem HeadingText.passed {s : List Char} (h : HeadingText s) : Passed false s false := by
  induction h with
  | nil => exact .nil
  | char hc _ ih => exact .append (s := [_]) (.outside (by simpa using hc)) ih
  | quoted hq hv _ ih =>
    have := (Passed.quoted hq hv).append ih
    simpa using this

/-! ### Declarations -/

/-- A text in which declarations are found, whatever stands behind it. -/
def Yields (s : List Char) (es : List Entity) : Prop :=
  ∀ r, declarations (s ++ r) = es ++ declarations r

theorem Yields.append {s t : List Char} {es fs : List Entity} (h : Yields s es)
    (h' : Yields t fs) : Yields (s ++ t) (es ++ fs) := by
  intro r
  rw [List.append_assoc, h, h', List.append_assoc]

theorem declarations_of_none {c : Char} {s : List Char} (h : declaration? (c :: s) = none) :
    declarations (c :: s) = declarations s := by
  rw [declarations]
  split
  · next h' => rw [h] at h'; cases h'
  · rfl

theorem declarations_of_some {s r : List Char} {e : Entity} (h : declaration? s = some (e, r)) :
    declarations s = e :: declarations r := by
  cases s with
  | nil => cases h
  | cons c s =>
    rw [declarations]
    split
    · next h' => rw [h] at h'; cases h'; rfl
    · next h' => rw [h] at h'; cases h'

theorem declaration?_eq_none {s : List Char} (h : after? "<!ENTITY".toList s = none) :
    declaration? s = none := by
  unfold declaration?
  rw [h]
  rfl

theorem yields_nil {s : List Char} (h : '<' ∉ s) : Yields s [] := by
  intro r
  induction s with
  | nil => rfl
  | cons c s ih =>
    obtain ⟨hc, hs⟩ := List.ne_and_not_mem_of_not_mem_cons h
    rw [List.cons_append, declarations_of_none (declaration?_eq_none (by simp [after?, hc])), ih hs]

theorem DeclarationText.declaration? {e : Entity} {d : List Char} (h : DeclarationText e d)
    (r : List Char) : declaration? (d ++ r) = some (e, r) := by
  cases h with
  | @mk name value g g' p q hn hg hg1 hg' hg1' hq hv hp =>
    have hstart : ∀ t, after? "<!ENTITY".toList ("<!ENTITY".toList ++ t) = some t :=
      fun t => after?_eq_some_iff.2 rfl
    have hname : ∀ t, ∀ c ∈ (name ++ t).head?, isBlank c = false := by
      obtain ⟨c, cs, rfl, hc, -⟩ := hn
      rintro t _ ⟨⟩
      have hw : isAsciiWordChar c = true := by
        simp only [isAsciiLetter, Bool.or_eq_true] at hc
        simp only [isAsciiWordChar, Char.isAlphanum, Bool.or_eq_true]
        exact hc.imp_left .inl
      exact isBlank_of_isAsciiWordChar hw
    have hgap : ∀ t, ∀ c ∈ (g' ++ t).head?, isEntityPart c = false := by
      obtain ⟨c, cs, rfl⟩ := List.exists_cons_of_ne_nil hg1'
      rintro t _ ⟨⟩
      exact isEntityPart_of_isBlank (hg' _ (by simp))
    have hquote : ∀ t, ∀ c ∈ (q :: t).head?, isBlank c = false := by
      rintro t _ ⟨⟩
      rcases hq with rfl | rfl <;> rfl
    have hclose : trimLeft (p ++ '>' :: r) = '>' :: r := trimLeft_append hp (by rintro _ ⟨⟩; rfl)
    simp only [List.append_assoc, List.cons_append, List.nil_append, Markup.declaration?, hstart,
      Option.bind_eq_bind, Option.bind_some, afterBlanks?_append hg hg1 (hname _),
      entityName?_append hn (hgap _), afterBlanks?_append hg' hg1' (hquote _), if_pos hq,
      cut?_singleton hv, hclose]

theorem SubsetText.yields {es : List Entity} {s : List Char} (h : SubsetText es s) :
    Yields s es := by
  induction h with
  | nil => exact fun r => rfl
  | @blank es c s hc _ ih =>
    have hlt : c ≠ '<' := by rintro rfl; cases hc
    exact @Yields.append [c] s [] es (yields_nil (by simpa using Ne.symm hlt)) ih
  | @declaration e es d s hd _ ih =>
    exact @Yields.append d s [e] es (fun r => declarations_of_some (hd.declaration? r)) ih

/-- A mark that does not stand in a text does not begin there when the text goes on with a character
that is not in the mark. -/
theorem after?_append_eq_none {m s r : List Char} {x : Char} (hi : ¬ m <:+: s) (hx : x ∉ m) :
    after? m (s ++ x :: r) = none := by
  rw [Option.eq_none_iff_forall_ne_some]
  intro t ht
  have heq := after?_eq_some_iff.1 ht
  rcases List.append_eq_append_iff.1 heq with ⟨a, hm, ha⟩ | ⟨a, hs, -⟩
  · cases a with
    | nil => exact hi ⟨[], [], by simpa using hm⟩
    | cons y a =>
      cases ha
      exact hx (by simp [hm])
  · exact hi ⟨[], a, by simp [hs]⟩

/-- Nothing is declared before a mark in a text without the opening of a declaration. -/
theorem declarations_append {s r : List Char} {x : Char} (hi : ¬ "<!ENTITY".toList <:+: s)
    (hx : x ∉ "<!ENTITY".toList) : declarations (s ++ x :: r) = declarations (x :: r) := by
  induction s with
  | nil => rfl
  | cons c s ih =>
    have hnone : after? "<!ENTITY".toList (c :: (s ++ x :: r)) = none :=
      after?_append_eq_none (s := c :: s) hi hx
    rw [List.cons_append, declarations_of_none (declaration?_eq_none hnone)]
    exact ih fun h => hi (h.trans (List.suffix_cons c s).isInfix)

/-! ### The opening of a block -/

/-- The word that opens a block, in any letter case. -/
def IsOpening (w : List Char) : Prop := sameLetters w "<!DOCTYPE".toList = true

namespace IsOpening

variable {w : List Char} (h : IsOpening w)

include h

theorem exists_cons : ∃ ws, w = '<' :: ws ∧ sameLetters ws "!DOCTYPE".toList = true := by
  cases w with
  | nil => cases length_of_sameLetters h
  | cons c ws =>
    obtain ⟨hc, hws⟩ := sameLetters_cons.1 h
    cases eq_of_toLower hc (by decide)
    exact ⟨ws, rfl, hws⟩

/-- Behind its first character, the opening holds letters and one more character only. -/
theorem toLower_mem {ws : List Char} (hw : w = '<' :: ws) {x : Char} (hx : x ∈ ws) :
    x.toLower ∈ lower "!DOCTYPE".toList := by
  obtain ⟨ws', hw', hws⟩ := exists_cons h
  cases hw.symm.trans hw'
  rw [← beq_iff_eq.1 hws]
  exact List.mem_map_of_mem hx

theorem not_mem_marks {ws : List Char} (hw : w = '<' :: ws) : ∀ x ∈ ws, x ∉ marks := by
  have hall : ∀ x ∈ marks, x.toLower ∉ lower "!DOCTYPE".toList := by decide
  exact fun x hx hm => hall x hm (toLower_mem h hw hx)

theorem passed : Passed false w false := by
  obtain ⟨ws, hw, -⟩ := exists_cons h
  have hws := Passed.plain (a := false) (not_mem_marks h hw)
  rw [hw]
  exact Passed.append (s := ['<']) (.outside (by decide)) hws

/-- The opening of a block is not the opening of a declaration. -/
theorem yields : Yields w [] := by
  obtain ⟨ws, hw, hws⟩ := exists_cons h
  intro r
  have hnone : after? "<!ENTITY".toList (w ++ r) = none := by
    rw [Option.eq_none_iff_forall_ne_some]
    intro t ht
    have hpre : "<!ENTITY".toList <+: w := by
      refine List.prefix_of_prefix_length_le ⟨t, (after?_eq_some_iff.1 ht).symm⟩ ⟨r, rfl⟩ ?_
      rw [length_of_sameLetters h]
      decide
    have hN : 'N' ∈ ws := by
      have := hpre.subset (a := 'N') (by decide)
      simpa [hw] using this
    exact absurd (toLower_mem h hw hN) (by decide)
  rw [hw, List.cons_append] at hnone ⊢
  rw [declarations_of_none (declaration?_eq_none hnone)]
  exact yields_nil (fun hm => not_mem_marks h hw _ hm (by decide)) r

end IsOpening

/-! ### Texts with a block -/

/-- A text in which no block opens. -/
def NoBlock (s : List Char) : Prop := ∀ w, IsOpening w → ¬ w <:+: s

/-- A block, and the entities it declares. -/
inductive BlockText : List Entity → List Char → Prop
  | plain {w head : List Char} : IsOpening w → HeadingText head → ¬ "<!ENTITY".toList <:+: head →
    BlockText [] (w ++ (head ++ ['>']))
  | subset {es : List Entity} {w head subset p : List Char} : IsOpening w → HeadingText head →
    ¬ "<!ENTITY".toList <:+: head → SubsetText es subset → Pad p →
    BlockText es (w ++ (head ++ '[' :: (subset ++ ']' :: (p ++ ['>']))))

/-- A text, the entities its block declares, and the text with the block blanked out but for its
line breaks. -/
inductive Declares : List Entity → List Char → List Char → Prop
  | none {s : List Char} : NoBlock s → Declares [] s s
  | block {es : List Entity} {before block after : List Char} : NoBlock before →
    BlockText es block →
    Declares es (before ++ List.replicate (block.count '\n') '\n' ++ after)
      (before ++ (block ++ after))

theorem NoBlock.nil : NoBlock [] := by
  intro w hw hi
  rw [List.infix_nil.1 hi] at hw
  cases length_of_sameLetters hw

theorem NoBlock.tail {c : Char} {s : List Char} (h : NoBlock (c :: s)) : NoBlock s :=
  fun w hw hi => h w hw (hi.trans (List.suffix_cons c s).isInfix)

theorem NoBlock.beforeBlock? {s : List Char} (h : NoBlock s) : beforeBlock? s = none := by
  induction s with
  | nil => rfl
  | cons c s ih =>
    have hnone : afterWord? "<!DOCTYPE".toList (c :: s) = none := by
      rw [Option.eq_none_iff_forall_ne_some]
      intro r hr
      obtain ⟨w, hw, heq⟩ := eq_of_afterWord? hr
      exact h w hw ⟨[], r, by simp [heq]⟩
    rw [Markup.beforeBlock?, hnone, ih h.tail]
    rfl

/-- The block that opens behind a text without one is the first. -/
theorem NoBlock.beforeBlock?_append {s w : List Char} (h : NoBlock s) (hw : IsOpening w)
    (r : List Char) : Markup.beforeBlock? (s ++ (w ++ r)) = some (s, w ++ r) := by
  induction s with
  | nil =>
    obtain ⟨ws, hws, -⟩ := hw.exists_cons
    have hsome := afterWord?_append hw r
    rw [List.nil_append, hws, List.cons_append] at *
    rw [Markup.beforeBlock?, hsome]
    rfl
  | cons c s ih =>
    have hnone : afterWord? "<!DOCTYPE".toList (c :: (s ++ (w ++ r))) = none := by
      rw [Option.eq_none_iff_forall_ne_some]
      intro t ht
      obtain ⟨v, hv, heq⟩ : ∃ v, IsOpening v ∧ _ := eq_of_afterWord? ht
      rw [← List.cons_append] at heq
      rcases List.append_eq_append_iff.1 heq with ⟨a, hva, ha⟩ | ⟨a, hsa, -⟩
      · cases a with
        | nil => exact h v hv ⟨[], [], by simp [hva]⟩
        | cons y a =>
          -- An opening that begins in the text before would hold the `<` of the block.
          obtain ⟨ws, rfl, -⟩ := hw.exists_cons
          obtain ⟨vs, rfl, -⟩ := hv.exists_cons
          obtain ⟨rfl, -⟩ := List.cons.inj ha
          obtain ⟨-, hvs⟩ := List.cons.inj hva
          exact hv.not_mem_marks rfl '<' (by simp [hvs]) (by decide)
      · exact h v hv ⟨[], a, by simp [hsa]⟩
    rw [List.cons_append, Markup.beforeBlock?, hnone, ih h.tail]
    rfl

section Block

variable {es : List Entity} {w head subset p : List Char} (hw : IsOpening w)
  (hh : HeadingText head) (hp : Pad p)

include hw hh hp

/-- A block ends where it should if what stands between its brackets is passed. -/
theorem blockEnd?_of_passed (hs : Passed true subset true) (r : List Char) :
    blockEnd? false none ((w ++ (head ++ '[' :: (subset ++ ']' :: (p ++ ['>'])))) ++ r) =
      some (w ++ (head ++ '[' :: (subset ++ ']' :: (p ++ ['>']))), r) := by
  have hpass := hw.passed.append (hh.passed.append (Passed.opening.append
    (hs.append (Passed.closing.append (Passed.plain (Pad.not_mem_marks hp))))))
  have := hpass.blockEnd? r
  simpa using this

omit hh

/-- A block declares what is declared between its brackets. -/
theorem declarations_of_yields (hi : ¬ "<!ENTITY".toList <:+: head) (hs : Yields subset es) :
    declarations (w ++ (head ++ '[' :: (subset ++ ']' :: (p ++ ['>'])))) = es := by
  have hlt : '<' ∉ p := fun hm => Pad.not_mem_marks hp _ hm (by decide)
  have hrest := yields_nil (s := ']' :: (p ++ ['>'])) (by simp [hlt]) []
  have hopen := yields_nil (s := ['[']) (by decide) (subset ++ ']' :: (p ++ ['>']))
  rw [List.append_nil] at hrest
  rw [hw.yields, declarations_append hi (by decide)]
  simp only [List.singleton_append] at hopen
  rw [hopen, hs, hrest]
  simp [Markup.declarations]

end Block

namespace BlockText

variable {es : List Entity} {block : List Char} (h : BlockText es block)

include h

theorem blockEnd? (r : List Char) : blockEnd? false none (block ++ r) = some (block, r) := by
  cases h with
  | @plain w head hw hh _ =>
    have := (hw.passed.append hh.passed).blockEnd? r
    simpa using this
  | subset hw hh _ hs hp => exact blockEnd?_of_passed hw hh hp hs.passed r

theorem declarations : declarations block = es := by
  cases h with
  | @plain w head hw hh hi =>
    rw [hw.yields, declarations_append hi (by decide)]
    have hend := yields_nil (s := ['>']) (by decide) []
    simpa [Markup.declarations] using hend
  | subset hw _ hi hs hp => exact declarations_of_yields hw hp hi hs.yields

theorem exists_opening : ∃ w r, block = w ++ r ∧ IsOpening w := by
  cases h with
  | plain hw => exact ⟨_, _, rfl, hw⟩
  | subset hw => exact ⟨_, _, rfl, hw⟩

end BlockText

/-- The first block of a text is blanked out, and what it declares is found. -/
theorem stripBlock_block {before block after : List Char} (hs : NoBlock before)
    (hopening : ∃ w r, block = w ++ r ∧ IsOpening w)
    (hend : Markup.blockEnd? false none (block ++ after) = some (block, after)) (source : String) :
    stripBlock source (before ++ (block ++ after)) =
      .ok (before ++ List.replicate (block.count '\n') '\n' ++ after, declarations block) := by
  obtain ⟨w, r, heq, hw⟩ := hopening
  have hbefore := hs.beforeBlock?_append hw (r ++ after)
  rw [← List.append_assoc w, ← heq] at hbefore
  rw [Markup.stripBlock, hbefore]
  simp only [hend]

/-- A block is blanked out, and its entities are found. -/
theorem Declares.stripBlock {es : List Entity} {body text : List Char} (h : Declares es body text)
    (source : String) : stripBlock source text = .ok (body, es) := by
  cases h with
  | none hs =>
    rw [Markup.stripBlock, hs.beforeBlock?]
  | @block _ before block after hs hb =>
    rw [stripBlock_block hs hb.exists_opening (hb.blockEnd? after), hb.declarations]

end Progression.Markup
