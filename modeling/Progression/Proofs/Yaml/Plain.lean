import Progression.Proofs.Text
import Progression.Yaml.Scanner
import Progression.Yaml.Writer

/-!
Plain scalars that are read back from the text they are written with, whatever stands on the lines
behind them (`Follows`). `Reads` is what the reader of any scalar comes to; a name is read wherever
it stands, other texts (`PlainForm`) behind the column of the block that holds them.
-/

namespace Progression.Yaml

open Progression.Text

/-! ### Characters -/

theorem ne_of_isPrintable {c d : Char} (h : isPrintable c = true) (hd : isPrintable d = false) :
    c ≠ d := by
  rintro rfl
  rw [h] at hd
  cases hd

theorem isBlank_of_isPrintable {c : Char} (h : isPrintable c = true) (hb : isBlank c = true) :
    c = ' ' := by
  have htab : c ≠ '\t' := ne_of_isPrintable h (by decide)
  simpa [isBlank, htab] using hb

theorem atBlank_append {s : List Char} (hs : s ≠ []) (r : List Char) :
    atBlank (s ++ r) = atBlank s := by
  cases s with
  | nil => exact absurd rfl hs
  | cons c s => rfl

/-! ### Between scalars -/

/-- What may stand behind a value, at a column: the end of the text, or something that begins with a
letter, a digit, an underscore or a hyphen. -/
structure Follows (k : Nat) (t : List Char) : Prop where
  head : ∀ c ∈ t.head?, isNamePart c = true
  ends : t = [] → k = 0

/-- A place on a later line, at a column and before a text, where what is read goes on. -/
def Reaches (allowed : Bool) (m : Mark) (r : Scanned) (k : Nat) (t : List Char) : Prop :=
  ∃ m', Scanner.skipIdle false allowed false r.mark r.rest = (true, m', t) ∧ m'.column = k ∧
    m.line < m'.line

/-- A text that has been read, up to the end of its line or further, in front of which reading goes
on where the text behind it begins. -/
structure Reads (allowed : Bool) (m : Mark) (s : List Char) (k : Nat) (t : List Char)
    (r : Scanned) : Prop where
  text : r.text = String.ofList s
  rest : r.rest <:+ '\n' :: (spaces k ++ t)
  reaches : Reaches allowed m r k t

variable {allowed : Bool} {s t : List Char} {m : Mark} {r : Scanned} {i k : Nat}

theorem Mark.after_of_not_break {c : Char} (h : isBreak c = false) (m : Mark) :
    m.after c = m.skip 1 := by
  rw [Mark.after, h]
  rfl

theorem Mark.skip_skip (m : Mark) (a b : Nat) : (m.skip a).skip b = m.skip (a + b) := by
  simp only [Mark.skip, Nat.add_assoc]

theorem isNamePart_ne {c d : Char} (h : isNamePart c = true) (hd : isNamePart d = false) :
    c ≠ d := by
  rintro rfl
  rw [h] at hd
  cases hd

theorem not_mem_startIndicators_of_isNamePart {c : Char} (h : isNamePart c = true) :
    c ∉ startIndicators := by
  have hall : startIndicators.all (fun d => !isNamePart d) = true := by decide
  intro hc
  simpa [h] using List.all_eq_true.1 hall c hc

theorem isBlank_of_isNamePart {c : Char} (h : isNamePart c = true) : isBlank c = false := by
  have hne := fun d => isNamePart_ne (d := d) h
  simp [isBlank, hne ' ' (by decide), hne '\t' (by decide)]

theorem isBreak_of_isNamePart {c : Char} (h : isNamePart c = true) : isBreak c = false := by
  have hne := fun d => isNamePart_ne (d := d) h
  simp [isBreak, hne '\n' (by decide), hne '\u2028' (by decide), hne '\u2029' (by decide)]

namespace Follows

theorem not_blank (ht : Follows k t) : ∀ c ∈ t.head?, isBlank c = false :=
  fun c hc => isBlank_of_isNamePart (ht.head c hc)

theorem not_break (ht : Follows k t) : ∀ c ∈ t.head?, isBreak c = false :=
  fun c hc => isBreak_of_isNamePart (ht.head c hc)

theorem skipIdle (ht : Follows k t) (allowed : Bool) (m : Mark) :
    Scanner.skipIdle false allowed false m t = (allowed, m, t) := by
  cases t with
  | nil => rfl
  | cons c t =>
    have hne := fun d => isNamePart_ne (d := d) (ht.head c rfl)
    simp [Scanner.skipIdle, ht.not_break c rfl, hne ' ' (by decide), hne '\t' (by decide),
      hne '#' (by decide)]

end Follows

theorem spaces_succ (n : Nat) : spaces (n + 1) = ' ' :: spaces n := rfl

theorem skipIdle_spaces (allowed : Bool) (m : Mark) (n : Nat) (t : List Char) :
    Scanner.skipIdle false allowed false m (spaces n ++ t) =
      Scanner.skipIdle false allowed false (m.skip n) t := by
  induction n generalizing m with
  | zero => rfl
  | succ n ih =>
    rw [spaces_succ, List.cons_append, Scanner.skipIdle, if_neg (by decide), if_neg (by decide),
      if_pos (by simp), ih, Mark.after_of_not_break (by decide), Mark.skip_skip, Nat.add_comm]

/-- From the end of a line on, reading goes on at what follows. -/
theorem skipIdle_line (ht : Follows k t) (allowed : Bool) (m : Mark) :
    ∃ m', Scanner.skipIdle false allowed false m ('\n' :: (spaces k ++ t)) = (true, m', t) ∧
      m'.column = k ∧ m.line < m'.line := by
  refine ⟨(m.after '\n').skip k, ?_, by simp [Mark.after, Mark.skip, isBreak],
    by simp [Mark.after, Mark.skip, isBreak]⟩
  rw [Scanner.skipIdle, if_pos (by decide), skipIdle_spaces, ht.skipIdle]
  simp

theorem reaches_line (ht : Follows k t) (hr : r.rest = '\n' :: (spaces k ++ t))
    (hm : m.line ≤ r.mark.line) : Reaches allowed m r k t := by
  obtain ⟨m', hskip, hcolumn, hline⟩ := skipIdle_line ht allowed r.mark
  exact ⟨m', hr ▸ hskip, hcolumn, Nat.lt_of_le_of_lt hm hline⟩

theorem reaches_here (ht : Follows k t) (hr : r.rest = t) (hk : r.mark.column = k)
    (hm : m.line < r.mark.line) : Reaches true m r k t :=
  ⟨r.mark, by rw [hr, ht.skipIdle], hk, hm⟩

theorem suffix_line (k : Nat) (t : List Char) : t <:+ '\n' :: (spaces k ++ t) :=
  (List.suffix_append _ _).trans (List.suffix_cons _ _)

/-! ### Plain scalars -/

namespace Folding

variable (f : Folding)

/-- A character of a plain line. -/
def push (c : Char) : Folding := if isBlank c then f.addBlank c else f.add c

def pushAll (s : List Char) : Folding := s.foldl push f

/-- What has been read, with what is held back, in reverse. -/
def pending : List Char := f.join.text

end Folding

/-- A text that may stand without quotes. -/
structure PlainForm (s : List Char) : Prop where
  ne_nil : s ≠ []
  printable : ∀ c ∈ s, isPrintable c = true
  noBreak : ∀ c ∈ s, isBreak c = false
  head : ∀ c ∈ s.head?, c ≠ ' '
  last : ∀ c ∈ s.getLast?, c ≠ ' '
  start : startsBadly s = false
  inside : hasIndicator 'a' s = false

variable {f : Folding}

theorem plainEnds_eq_false {c : Char} (hf : f.broken = false) (hfresh : f.blanks = [] ∨ c ≠ '#')
    (hcolon : c ≠ ':' ∨ atBlank s = false) (hpos : 0 < i) (hi : i ≤ m.column) (r : List Char) :
    plainEnds ⟨false, i⟩ f m (c :: (s ++ r)) = false := by
  unfold plainEnds
  rw [Bool.or_eq_false_iff]
  constructor
  · have hcolumn : ¬ m.column < i := by omega
    have hzero : ¬ m.column = 0 := by omega
    rcases hfresh with hnil | hne
    · simp [hf, hnil]
    · simp [hne, hcolumn, hzero]
  · split
    · next rest heq =>
      obtain ⟨rfl, rfl⟩ := List.cons.inj heq
      have hs : s ≠ [] := by
        rintro rfl
        simp [atBlank] at hcolon
      rw [atBlank_append hs]
      simpa using hcolon
    · rfl
    · next heq => cases heq

/-- A plain scalar goes on over a part of its line. -/
theorem plainFrom_append {before : Char} (hbreak : ∀ c ∈ s, isBreak c = false)
    (hin : hasIndicator before s = false) (hf : f.broken = false)
    (hblank : f.blanks ≠ [] → isBlank before = true) (hpos : 0 < i) (hi : i ≤ m.column)
    (r : List Char) : plainFrom ⟨false, i⟩ f m (s ++ r) =
      plainFrom ⟨false, i⟩ (f.pushAll s) (m.skip s.length) r := by
  induction s generalizing f m before with
  | nil => rfl
  | cons c s ih =>
    obtain ⟨hc, hs⟩ := List.forall_mem_cons.1 hbreak
    simp only [hasIndicator, Bool.or_eq_false_iff, Bool.and_eq_false_iff, decide_eq_false_iff_not]
      at hin
    obtain ⟨⟨hcolon, hsign⟩, hin⟩ := hin
    have hcolumn : i ≤ (m.skip 1).column := Nat.le_succ_of_le hi
    have hskip : (m.skip 1).skip s.length = m.skip (c :: s).length := by
      rw [Mark.skip_skip, List.length_cons, Nat.add_comm]
    rw [List.cons_append, plainFrom, Mark.after_of_not_break hc, ← hskip]
    by_cases hb : isBlank c = true
    · have hpush : f.pushAll (c :: s) = (f.addBlank c).pushAll s := by
        rw [Folding.pushAll, List.foldl_cons, Folding.push, if_pos hb, ← Folding.pushAll]
      have hbroken : (f.addBlank c).broken = false := by simp [Folding.addBlank, hf]
      rw [if_pos hb, hf, hpush, ih hs hin hbroken (fun _ => hb) hcolumn]
      rfl
    · have hpush : f.pushAll (c :: s) = (f.add c).pushAll s := by
        rw [Folding.pushAll, List.foldl_cons, Folding.push, if_neg hb, ← Folding.pushAll]
      have hjoin : f.join.broken = false ∧ f.join.blanks = [] := by simp [Folding.join, hf]
      have hfresh : f.blanks = [] ∨ c ≠ '#' := by
        rcases hsign with hne | ⟨hnot, -⟩
        · exact .inr hne
        · exact .inl (Classical.byContradiction fun hne => by simp [hblank hne] at hnot)
      have hends := plainEnds_eq_false (s := s) hf hfresh hcolon hpos hi r
      rw [if_neg hb, if_neg (by simp [hc]), if_neg (by simp), if_neg (by simp [hends]), hpush]
      exact ih hs hin hjoin.1 (fun h => absurd hjoin.2 h) hcolumn

/-- What a part of a line comes to: nothing is held back if it ends with no blank. -/
theorem exists_pushAll (s text blanks : List Char) :
    ∃ text' blanks', Folding.pushAll { text, blanks } s = { text := text', blanks := blanks' } ∧
      blanks' ++ text' = s.reverse ++ (blanks ++ text) ∧
      (s ≠ [] → (∀ c ∈ s.getLast?, isBlank c = false) → blanks' = []) := by
  induction s generalizing text blanks with
  | nil => exact ⟨text, blanks, rfl, by simp, by simp⟩
  | cons c s ih =>
    have hlast : (∀ x ∈ (c :: s).getLast?, isBlank x = false) → s ≠ [] →
        ∀ x ∈ s.getLast?, isBlank x = false := by
      intro h hs
      rwa [List.getLast?_cons_of_ne_nil hs] at h
    cases hb : isBlank c with
    | true =>
      have hpush : Folding.push { text, blanks } c = { text, blanks := c :: blanks } := by
        simp [Folding.push, hb, Folding.addBlank]
      obtain ⟨text', blanks', hall, htext, hblanks⟩ := ih text (c :: blanks)
      refine ⟨text', blanks', ?_, by simpa using htext, fun _ h => ?_⟩
      · rw [← hall, ← hpush]
        rfl
      · cases s with
        | nil =>
          have hc := h c rfl
          rw [hb] at hc
          cases hc
        | cons d s => exact hblanks (by simp) (hlast h (by simp))
    | false =>
      have hpush : Folding.push { text, blanks } c = { text := c :: (blanks ++ text) } := by
        simp [Folding.push, hb, Folding.add, Folding.join]
      obtain ⟨text', blanks', hall, htext, hblanks⟩ := ih (c :: (blanks ++ text)) []
      refine ⟨text', blanks', ?_, by simpa using htext, fun _ h => ?_⟩
      · rw [← hall, ← hpush]
        rfl
      · cases s with
        | nil =>
          cases hall
          rfl
        | cons d s => exact hblanks (by simp) (hlast h (by simp))

/-- Blanks at the beginning of a line do not count. -/
theorem plainFrom_spaces (hf : f.broken = true) (κ : PlainContext) (n : Nat) (r : List Char) :
    plainFrom κ f m (spaces n ++ r) = plainFrom κ f (m.skip n) r := by
  induction n generalizing m with
  | zero => rfl
  | succ n ih =>
    have hblank : f.addBlank ' ' = f := by simp [Folding.addBlank, hf]
    rw [spaces_succ, List.cons_append, plainFrom, if_pos (by decide), if_neg (by simp), hblank, ih,
      Mark.after_of_not_break (by decide), Mark.skip_skip, Nat.add_comm]

/-- A plain scalar ends where a line is not deep enough. -/
theorem plainFrom_follows (hf : f.broken = true) (hk : m.column = k) (hi : k < i)
    (ht : Follows k t) : plainFrom ⟨false, i⟩ f m t = some ⟨f.result, m, t, true⟩ := by
  cases t with
  | nil => rw [plainFrom, hf]
  | cons c t =>
    have hends : plainEnds ⟨false, i⟩ f m (c :: t) = true := by
      unfold plainEnds
      simp [hf, hk, hi]
    rw [plainFrom, ht.not_blank c rfl, ht.not_break c rfl, hends, hf]
    simp

namespace PlainForm

variable (hs : PlainForm s)

include hs

theorem isBlank_last : ∀ c ∈ s.getLast?, isBlank c = false := by
  intro c hc
  have hprint := hs.printable c (List.mem_of_getLast? hc)
  cases hb : isBlank c with
  | false => rfl
  | true => exact absurd (isBlank_of_isPrintable hprint hb) (hs.last c hc)

/-- The text is read up to what stands behind it. -/
theorem plainFrom (hpos : 0 < i) (hi : i ≤ m.column) (r : List Char) :
    Yaml.plainFrom ⟨false, i⟩ {} m (s ++ r) =
      Yaml.plainFrom ⟨false, i⟩ { text := s.reverse } (m.skip s.length) r := by
  obtain ⟨text, blanks, hall, htext, hblanks⟩ := exists_pushAll s [] []
  obtain rfl := hblanks hs.ne_nil hs.isBlank_last
  obtain rfl : text = s.reverse := by simpa using htext
  rw [plainFrom_append hs.noBreak hs.inside rfl (by simp) hpos hi, hall]

/-- The text at the end of its line. -/
theorem plainFrom_line (hi : i ≤ m.column) (hk : k < i) (ht : Follows k t) :
    ∃ r, Yaml.plainFrom ⟨false, i⟩ {} m (s ++ '\n' :: (spaces k ++ t)) = some r ∧
      r.broken = true ∧ Reads true m s k t r := by
  have hbroken : (Folding.addBreak { text := s.reverse } '\n').broken = true := rfl
  have hline : ((m.skip s.length).after '\n').skip k =
      ⟨m.line + 1, k, m.index + s.length + 1 + k⟩ := by
    simp [Mark.after, Mark.skip, isBreak]
  rw [hs.plainFrom (by omega) hi, Yaml.plainFrom, if_neg (by decide), if_pos (by decide),
    plainFrom_spaces hbroken, hline, plainFrom_follows hbroken rfl hk ht]
  refine ⟨_, rfl, rfl, ?_, suffix_line k t, reaches_here ht rfl rfl (Nat.lt_succ_self _)⟩
  simp [Folding.result, Folding.addBreak]

end PlainForm

theorem startsBadly_cons_eq_false {c : Char} (h : startsBadly (c :: s) = false) :
    c ∉ startIndicators ∧ (c = '-' ∨ c = '?' ∨ c = ':' → atBlank s = false) := by
  simp only [startsBadly, Bool.or_eq_false_iff] at h
  obtain ⟨⟨⟨hstart, hsign⟩, -⟩, -⟩ := h
  refine ⟨by simpa using hstart, ?_⟩
  rintro (rfl | rfl | rfl) <;> simpa using hsign

/-! ### Names -/

/-- A text of letters, digits, underscores and hyphens that does not begin with a hyphen. -/
structure IsName (s : List Char) : Prop where
  ne_nil : s ≠ []
  part : ∀ c ∈ s, isNamePart c = true
  head : s.head? ≠ some '-'

theorem isPrintable_of_isNamePart {c : Char} (h : isNamePart c = true) : isPrintable c = true := by
  have hval : c.val.toNat = c.toNat := rfl
  simp only [isNamePart, Char.isAlphanum, Text.isAlpha_iff, Char.isDigit, Bool.or_eq_true,
    Bool.and_eq_true, decide_eq_true_eq, beq_iff_eq, ge_iff_le, UInt32.le_iff_toNat_le, hval] at h
  rcases h with ((((⟨hlow, hhigh⟩ | ⟨hlow, hhigh⟩) | ⟨hlow, hhigh⟩) | rfl) | rfl)
  case inr | inl.inr => decide
  all_goals
    simp at hlow hhigh
    simp [isPrintable]
    omega

theorem hasIndicator_eq_false {before : Char} (h : ∀ c ∈ s, isNamePart c = true) :
    hasIndicator before s = false := by
  induction s generalizing before with
  | nil => rfl
  | cons c s ih =>
    obtain ⟨hc, hs⟩ := List.forall_mem_cons.1 h
    have hne := fun d => isNamePart_ne (d := d) hc
    simp [hasIndicator, hne ':' (by decide), hne '#' (by decide), ih hs]

/-- A plain scalar goes on over what names are made of, wherever it stands. -/
theorem plainFrom_parts {κ : PlainContext} (h : ∀ c ∈ s, isNamePart c = true) (hκ : κ.flow = false)
    {text : List Char} {r : List Char} : plainFrom κ { text } m (s ++ r) =
      plainFrom κ { text := s.reverse ++ text } (m.skip s.length) r := by
  induction s generalizing text m with
  | nil => rfl
  | cons c s ih =>
    obtain ⟨hc, hs⟩ := List.forall_mem_cons.1 h
    have hcolon : c ≠ ':' := isNamePart_ne hc (by decide)
    have hbreak := isBreak_of_isNamePart hc
    have hadd : Folding.add { text } c = { text := c :: text } := rfl
    rw [List.cons_append, plainFrom, if_neg (by simp [isBlank_of_isNamePart hc]),
      if_neg (by simp [hbreak]), if_neg (by simp [hκ]), if_neg (by simp [plainEnds, hκ]),
      hadd, ih hs, Mark.after_of_not_break hbreak, Mark.skip_skip]
    simp [Nat.add_comm]

namespace IsName

variable (hs : IsName s)

include hs

theorem startsBadly : Yaml.startsBadly s = false := by
  obtain ⟨c, s, rfl⟩ := List.exists_cons_of_ne_nil hs.ne_nil
  have hhyphen : c ≠ '-' := by simpa using hs.head
  have hne := fun d => isNamePart_ne (d := d) (hs.part c (by simp))
  have hindicators := not_mem_startIndicators_of_isNamePart (hs.part c (by simp))
  simp [Yaml.startsBadly, hindicators, hhyphen, hhyphen.symm, hne '?' (by decide),
    hne ':' (by decide), (hne '.' (by decide)).symm, after?]

theorem plainForm : PlainForm s where
  ne_nil := hs.ne_nil
  printable c hc := isPrintable_of_isNamePart (hs.part c hc)
  noBreak c hc := isBreak_of_isNamePart (hs.part c hc)
  head c hc := isNamePart_ne (hs.part c (List.mem_of_mem_head? hc)) (by decide)
  last c hc := isNamePart_ne (hs.part c (List.mem_of_getLast? hc)) (by decide)
  start := hs.startsBadly
  inside := hasIndicator_eq_false hs.part

/-- A name before a colon. -/
theorem plainFrom_key {κ : PlainContext} (hκ : κ.flow = false) (m : Mark) {r : List Char}
    (hr : atBlank r = true) : plainFrom κ {} m (s ++ ':' :: r) =
      some ⟨String.ofList s, m.skip s.length, ':' :: r, false⟩ := by
  rw [plainFrom_parts hs.part hκ, plainFrom, if_neg (by decide), if_neg (by decide),
    if_neg (by simp [hκ]), if_pos (by simp [plainEnds, hr])]
  simp [Folding.result]

theorem atDocumentMark (r : List Char) : Yaml.atDocumentMark (s ++ r) = false := by
  obtain ⟨c, s, rfl⟩ := List.exists_cons_of_ne_nil hs.ne_nil
  have hhyphen : c ≠ '-' := by simpa using hs.head
  have hdot : c ≠ '.' := isNamePart_ne (hs.part c (by simp)) (by decide)
  unfold Yaml.atDocumentMark
  split
  · next h => exact absurd (List.cons.inj h).1 hhyphen
  · next h => exact absurd (List.cons.inj h).1 hdot
  · rfl

end IsName

end Progression.Yaml
