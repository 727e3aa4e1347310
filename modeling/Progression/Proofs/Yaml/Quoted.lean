import Mathlib.Algebra.Group.Nat.Defs
import Progression.Proofs.Yaml.Plain

/-!
Scalars between quotes that are read back from the text they are written with. Blanks and line ends
inside of a scalar are held back when it is read; what has been read counts with them
(`Folding.pending`).
-/

namespace Progression.Yaml

open Progression.Text

variable {s t : List Char} {m : Mark} {k : Nat} {f : Folding}

/-! ### Between quotes -/

namespace Folding

/-- A scalar under way whose line ends are kept as they are. -/
structure Sound (f : Folding) : Prop where
  unbroken : f.broken = false → f.trailing = []
  broken : f.broken = true → f.blanks = [] ∧ f.leading ≠ ['\n']

theorem join_eq (f : Folding) : f.join = { text := f.pending } := by
  unfold pending join
  split <;> rfl

theorem add_eq (f : Folding) (c : Char) : f.add c = { text := c :: f.pending } := by
  rw [add, join_eq]

theorem pending_text (text : List Char) : Folding.pending { text } = text := rfl

theorem sound_text (text : List Char) : Folding.Sound { text } := ⟨fun _ => rfl, nofun⟩

theorem pending_addBlank (h : f.broken = false) (c : Char) :
    (f.addBlank c).pending = c :: f.pending := by
  simp [pending, addBlank, join, h]

theorem Sound.addBlank (hf : f.Sound) (h : f.broken = false) (c : Char) : (f.addBlank c).Sound := by
  refine ⟨fun _ => ?_, fun h' => ?_⟩ <;> simp_all [Folding.addBlank, hf.unbroken]

theorem broken_addBreak (f : Folding) (c : Char) : (f.addBreak c).broken = true := by
  cases h : f.broken <;> simp [addBreak, h]

theorem Sound.addBreak (hf : f.Sound) {c : Char} (hc : c ≠ '\n') : (f.addBreak c).Sound := by
  refine ⟨fun h => ?_, fun _ => ?_⟩
  · rw [broken_addBreak] at h
    cases h
  · cases h : f.broken with
    | false => simp [Folding.addBreak, h, hc]
    | true => simpa [Folding.addBreak, h] using hf.broken h

/-- A line end, if no blank stands before it. -/
theorem Sound.pending_addBreak (hf : f.Sound) {c : Char} (hc : c ≠ '\n') (hb : f.blanks = []) :
    (f.addBreak c).pending = c :: f.pending := by
  cases h : f.broken with
  | false => simp [pending, Folding.addBreak, join, h, hc, hb, hf.unbroken h]
  | true => simp [pending, Folding.addBreak, join, h, (hf.broken h).2]

end Folding

theorem quotedFrom_spaces (hf : f.broken = true) (single : Bool) (m : Mark) (n : Nat)
    (r : List Char) : quotedFrom single f m .text (spaces n ++ r) =
      quotedFrom single f (m.skip n) .text r := by
  induction n generalizing m with
  | zero => rfl
  | succ n ih =>
    have hblank : f.addBlank ' ' = f := by simp [Folding.addBlank, hf]
    rw [spaces_succ, List.cons_append, quotedFrom, if_pos (by decide), hblank, ih,
      Mark.after_of_not_break (by decide), Mark.skip_skip, Nat.add_comm]

/-- The column of a line is passed over where a line begins. -/
theorem exists_quotedFrom_indent {column : Nat} (hcolumn : 0 < column) (single : Bool)
    (hm : f.broken = false → 0 < m.column) :
    ∃ m', (∀ r, quotedFrom single f m .text ((if f.broken then spaces column else []) ++ r) =
        quotedFrom single f m' .text r) ∧ 0 < m'.column ∧ m'.line = m.line := by
  cases h : f.broken with
  | false => exact ⟨m, fun _ => rfl, hm h, rfl⟩
  | true =>
    exact ⟨m.skip column, quotedFrom_spaces h single m column, Nat.lt_add_left _ hcolumn, rfl⟩

/-- A character that stands for itself between quotes. -/
theorem quotedFrom_add {c : Char} {single : Bool} (hb : isBlank c = false) (hc : isBreak c = false)
    (hm : 0 < m.column) (hq : c ≠ if single then '\'' else '"') (he : single = true ∨ c ≠ '\\')
    (r : List Char) : quotedFrom single f m .text (c :: r) =
      quotedFrom single (f.add c) (m.skip 1) .text r := by
  have hzero : ¬ m.column = 0 := by omega
  rw [quotedFrom, if_neg (by simp [hb]), if_neg (by simp [hc]), if_neg (by simp [hzero]),
    Mark.after_of_not_break hc]
  cases single with
  | false => rw [if_neg (by simp), if_neg (by simpa using hq), if_neg (by simpa using he)]
  | true => rw [if_neg (by simpa using hq), if_neg (by simp), if_neg (by simp)]

/-- A quote, which is written twice. -/
theorem quotedFrom_quote (hm : 0 < m.column) (r : List Char) :
    quotedFrom true f m .text ('\'' :: '\'' :: r) =
      quotedFrom true { text := '\'' :: f.pending } ((m.skip 1).skip 1) .text r := by
  have hzero : ¬ m.column = 0 := by omega
  rw [quotedFrom, if_neg (by decide), if_neg (by decide), if_neg (by simp [hzero]),
    if_pos (by simp), quotedFrom, if_pos rfl, Mark.after_of_not_break (by decide),
    Mark.after_of_not_break (by decide), Folding.join_eq, Folding.add_eq, Folding.pending_text]

theorem meet_cons_eq_false {p q : Char → Bool} {c : Char} (h : meet p q (c :: s) = false) :
    (∀ d ∈ s.head?, (p c && q d) = false) ∧ meet p q s = false := by
  cases s with
  | nil => exact ⟨by simp, rfl⟩
  | cons d s =>
    rw [meet, Bool.or_eq_false_iff] at h
    exact ⟨by simpa using h.1, h.2⟩

theorem isBlank_of_isBreak {c : Char} (h : isBreak c = true) : isBlank c = false := by
  simp only [isBreak, Bool.or_eq_true, beq_iff_eq] at h
  rcases h with (rfl | rfl) | rfl <;> decide

/-- A text that can stand between single quotes. -/
structure SingleForm (s : List Char) : Prop where
  printable : ∀ c ∈ s, isPrintable c = true
  noNewline : '\n' ∉ s
  spaceBreak : meet isSpace isBreak s = false
  breakSpace : meet isBreak isSpace s = false

/-- A scalar between single quotes that is under way where a text is left of it: what is held back
does not meet the beginning of this text in a way that changes one of them. -/
structure Folding.Stands (f : Folding) (m : Mark) (s : List Char) : Prop where
  sound : f.Sound
  broken : f.broken = true → s.head? ≠ some ' '
  blanks : f.blanks ≠ [] → ∀ c ∈ s.head?, isBreak c = false
  column : f.broken = false → 0 < m.column

/-- A character of a line between single quotes. -/
theorem exists_quotedFrom_single {c : Char} (hc : isPrintable c = true) (hb : isBreak c = false)
    (hf : f.Sound) (hspace : f.broken = true → c ≠ ' ') (hm : 0 < m.column) :
    ∃ f' m', (∀ r, quotedFrom true f m .text ((if c = '\'' then ['\'', '\''] else [c]) ++ r) =
        quotedFrom true f' m' .text r) ∧
      f'.Sound ∧ f'.pending = c :: f.pending ∧ f'.broken = false ∧ (f'.blanks ≠ [] → c = ' ') ∧
      0 < m'.column ∧ m'.line = m.line := by
  by_cases hquote : c = '\''
  · subst hquote
    refine ⟨{ text := '\'' :: f.pending }, (m.skip 1).skip 1, fun r => ?_, Folding.sound_text _, rfl,
      rfl, by simp, by simp [Mark.skip], rfl⟩
    rw [if_pos rfl]
    exact quotedFrom_quote hm r
  rw [if_neg hquote]
  by_cases hblank : isBlank c = true
  · obtain rfl := isBlank_of_isPrintable hc hblank
    have hunbroken : f.broken = false := by
      cases h : f.broken with
      | false => rfl
      | true => exact absurd rfl (hspace h)
    refine ⟨f.addBlank ' ', m.skip 1, fun r => ?_, hf.addBlank hunbroken ' ',
      Folding.pending_addBlank hunbroken ' ', by simp [Folding.addBlank, hunbroken], fun _ => rfl,
      Nat.succ_pos _, rfl⟩
    rw [List.singleton_append, quotedFrom, if_pos hblank, Mark.after_of_not_break hb]
  · refine ⟨{ text := c :: f.pending }, m.skip 1, fun r => ?_, Folding.sound_text _,
      Folding.pending_text _, rfl, by simp, Nat.succ_pos _, rfl⟩
    rw [List.singleton_append, quotedFrom_add (by simpa using hblank) hb hm (by simpa using hquote)
      (.inl rfl), Folding.add_eq]

/-- One character between single quotes, with the column in front of it where a line begins. -/
theorem quotedFrom_singleChar {column : Nat} (hcolumn : 0 < column) {c : Char}
    (hs : SingleForm (c :: s)) (hf : f.Stands m (c :: s)) :
    ∃ f' m', (∀ r, quotedFrom true f m .text (singleBody column f.broken (c :: s) ++ r) =
        quotedFrom true f' m' .text (singleBody column f'.broken s ++ r)) ∧
      f'.Stands m' s ∧ f'.pending = c :: f.pending ∧ m.line ≤ m'.line := by
  have hspace := (meet_cons_eq_false hs.spaceBreak).1
  have hbreak := (meet_cons_eq_false hs.breakSpace).1
  cases hb : isBreak c with
  | true =>
    have hcn : c ≠ '\n' := fun h => hs.noNewline (h ▸ List.mem_cons_self)
    have hnil : f.blanks = [] := Classical.byContradiction fun h => by
      simp [hf.blanks h c rfl] at hb
    have hsound : (f.addBreak c).Sound := hf.sound.addBreak hcn
    have hbroken := f.broken_addBreak c
    refine ⟨f.addBreak c, m.after c, fun r => ?_, ⟨hsound, fun _ h => ?_, fun h => ?_, fun h => ?_⟩,
      hf.sound.pending_addBreak hcn hnil, ?_⟩
    · rw [singleBody, if_pos hb, List.cons_append, quotedFrom,
        if_neg (by simp [isBlank_of_isBreak hb]), if_pos hb, hbroken]
    · simpa [hb, isSpace] using hbreak ' ' h
    · exact absurd (hsound.broken hbroken).1 h
    · rw [hbroken] at h
      cases h
    · simp [Mark.after, hb]
  | false =>
    have hbody : ∀ r, singleBody column f.broken (c :: s) ++ r =
        (if f.broken then spaces column else []) ++ ((if c = '\'' then ['\'', '\''] else [c]) ++
          (singleBody column false s ++ r)) := by
      intro r
      rw [singleBody, if_neg (by simp [hb])]
      simp
    obtain ⟨m₁, hindent, hm₁, hline₁⟩ := exists_quotedFrom_indent hcolumn true hf.column
    obtain ⟨f', m', hread, hsound, hpending, hunbroken, hheld, hm', hline'⟩ :=
      exists_quotedFrom_single (hs.printable c List.mem_cons_self) hb hf.sound
        (fun h hc => hf.broken h (by rw [hc]; rfl)) hm₁
    refine ⟨f', m', fun r => ?_, ⟨hsound, fun h => ?_, fun h d hd => ?_, fun _ => hm'⟩, hpending,
      by omega⟩
    · rw [hbody, hindent, hread, hunbroken]
    · rw [hunbroken] at h
      cases h
    · simpa [hheld h, isSpace] using hspace d hd

/-- What is written between single quotes, from its midst on. -/
theorem quotedFrom_singleBody {column : Nat} (hcolumn : 0 < column) (hs : SingleForm s)
    (hf : f.Stands m s) : ∃ f' m',
      (∀ r, quotedFrom true f m .text (singleBody column f.broken s ++ r) =
        quotedFrom true f' m' .text r) ∧
      f'.pending = s.reverse ++ f.pending ∧ m.line ≤ m'.line := by
  induction s generalizing f m with
  | nil => exact ⟨f, m, fun _ => rfl, rfl, Nat.le_refl _⟩
  | cons c s ih =>
    obtain ⟨f₁, m₁, hfirst, hf₁, hpending₁, hline₁⟩ := quotedFrom_singleChar hcolumn hs hf
    have htail : SingleForm s := ⟨(List.forall_mem_cons.1 hs.printable).2,
      (List.ne_and_not_mem_of_not_mem_cons hs.noNewline).2, (meet_cons_eq_false hs.spaceBreak).2,
      (meet_cons_eq_false hs.breakSpace).2⟩
    obtain ⟨f₂, m₂, hothers, hpending₂, hline₂⟩ := ih htail hf₁
    refine ⟨f₂, m₂, fun r => (hfirst r).trans (hothers r), ?_, hline₁.trans hline₂⟩
    simp [hpending₂, hpending₁]

/-- A single quote that is not the first of two. -/
theorem quotedFrom_end (f : Folding) (m : Mark) {r : List Char} (hr : r.head? ≠ some '\'') :
    quotedFrom true f m .text ('\'' :: r) =
      some ⟨String.ofList f.pending.reverse, m.skip 1, r, false⟩ := by
  have hmark : (decide (m.column = 0) && atDocumentMark ('\'' :: r)) = false := by
    rw [Bool.and_eq_false_iff]
    exact .inr rfl
  rw [quotedFrom, if_neg (by decide), if_neg (by decide), hmark, if_neg (by simp),
    if_pos (by simp), Mark.after_of_not_break (by decide)]
  cases r with
  | nil => rfl
  | cons d r =>
    rw [quotedFrom, if_neg (by simpa using hr)]
    rfl

/-- A text between single quotes, read at its own place. -/
theorem quotedFrom_single {column : Nat} (hcolumn : 0 < column) (hs : SingleForm s)
    (hm : 0 < m.column) (ht : Follows k t) :
    ∃ r, quotedFrom true {} m .text
        (singleBody column false s ++ '\'' :: '\n' :: (spaces k ++ t)) = some r ∧
      Reads false m s k t r := by
  have hstands : Folding.Stands {} m s :=
    ⟨Folding.sound_text [], by simp, by simp, fun _ => hm⟩
  obtain ⟨f, m', hread, hpending, hline⟩ := quotedFrom_singleBody hcolumn hs hstands
  have htext : f.pending.reverse = s := by
    rw [hpending, List.reverse_append, List.reverse_reverse]
    rfl
  refine ⟨_, (hread _).trans (quotedFrom_end f m' (by simp)), ?_, List.suffix_refl _,
    reaches_line ht rfl hline⟩
  rw [htext]

/-! ### Between double quotes -/

theorem digitValue?_hexDigit : ∀ n < 16, Number.digitValue? 16 (hexDigit n) = some n := by decide

theorem isBreak_hexDigit : ∀ n < 16, isBreak (hexDigit n) = false := by decide

/-- Digits of an escape that are not the last. -/
theorem quotedFrom_hexDigits (f : Folding) (m : Mark) {n width left : Nat} (hn : n < 16 ^ width)
    (hleft : 0 < left) (r : List Char) :
    quotedFrom false f m (.digits 0 (width + left)) (hexDigits width n ++ r) =
      quotedFrom false f (m.skip width) (.digits n left) r := by
  induction width generalizing n left r with
  | zero =>
    obtain rfl : n = 0 := by simpa using hn
    simp [hexDigits, Mark.skip]
  | succ width ih =>
    have hdiv : n / 16 < 16 ^ width := by
      rw [Nat.div_lt_iff_lt_mul (by decide), ← Nat.pow_succ]
      exact hn
    have hmod : n % 16 < 16 := Nat.mod_lt _ (by decide)
    have hassoc : width + 1 + left = width + (left + 1) := by omega
    have hvalue : n / 16 * 16 + n % 16 = n := Nat.div_add_mod' n 16
    rw [hexDigits, List.append_assoc, hassoc, ih hdiv (by omega), List.singleton_append, quotedFrom]
    simp only [digitValue?_hexDigit _ hmod, hvalue]
    rw [if_pos (by omega), Mark.after_of_not_break (isBreak_hexDigit _ hmod), Mark.skip_skip,
      Nat.add_sub_cancel]

theorem ofCodePoint?_toNat (c : Char) : ofCodePoint? c.toNat = some c := dif_pos c.valid

theorem escaped?_of_letter {c l : Char} (h : escapeLetter? c = some l) :
    escaped? l = some c ∧ isBreak l = false := by
  have hc : Char.ofNat c.toNat = c := Char.ofNat_toNat c
  unfold escapeLetter? at h
  split at h <;> cases h <;> next hn =>
    rw [← hc, hn]
    decide

/-- A character by its code. -/
theorem quotedFrom_code (f : Folding) (m : Mark) {c : Char} {width : Nat}
    (hc : c.toNat < 16 ^ (width + 1)) (r : List Char) :
    quotedFrom false f m (.digits 0 (width + 1)) (hexDigits (width + 1) c.toNat ++ r) =
      quotedFrom false (f.add c) (m.skip (width + 1)) .text r := by
  have hdiv : c.toNat / 16 < 16 ^ width := by
    rw [Nat.div_lt_iff_lt_mul (by decide), ← Nat.pow_succ]
    exact hc
  have hmod : c.toNat % 16 < 16 := Nat.mod_lt _ (by decide)
  have hvalue : c.toNat / 16 * 16 + c.toNat % 16 = c.toNat := Nat.div_add_mod' _ 16
  rw [hexDigits, List.append_assoc, quotedFrom_hexDigits f m hdiv (by decide),
    List.singleton_append, quotedFrom]
  simp only [digitValue?_hexDigit _ hmod, hvalue]
  rw [if_neg (by decide), ofCodePoint?_toNat, Mark.after_of_not_break (isBreak_hexDigit _ hmod),
    Mark.skip_skip]

theorem quotedFrom_escape (hm : 0 < m.column) (r : List Char) :
    quotedFrom false f m .text ('\\' :: r) =
      quotedFrom false { text := f.pending } (m.skip 1) .escape r := by
  have hzero : ¬ m.column = 0 := by omega
  rw [quotedFrom, if_neg (by decide), if_neg (by decide), if_neg (by simp [hzero]),
    if_neg (by simp), if_neg (by simp), if_pos (by simp), Mark.after_of_not_break (by decide),
    Folding.join_eq]

theorem quotedFrom_sign {l : Char} {width : Nat} (hl : isBreak l = false)
    (hnone : escaped? l = none) (hwidth : escapeWidth? l = some width) (r : List Char) :
    quotedFrom false f m .escape (l :: r) = quotedFrom false f (m.skip 1) (.digits 0 width) r := by
  rw [quotedFrom, if_neg (by simp [hl]), Mark.after_of_not_break hl, hnone, hwidth]

/-- A character as it is written between double quotes. -/
theorem quotedFrom_doubleChar (hf : f.broken = false) (hm : 0 < m.column) (c : Char)
    (r : List Char) : ∃ f' m', quotedFrom false f m .text (doubleChar c ++ r) =
      quotedFrom false f' m' .text r ∧ f'.broken = false ∧ f'.pending = c :: f.pending ∧
        0 < m'.column ∧ m'.line = m.line := by
  have hadd : Folding.add { text := f.pending } c = { text := c :: f.pending } := by
    rw [Folding.add_eq, Folding.pending_text]
  have hcode (l : Char) (width : Nat) (hl : isBreak l = false) (hnone : escaped? l = none)
      (hwidth : escapeWidth? l = some (width + 1)) (hc : c.toNat < 16 ^ (width + 1)) :
      quotedFrom false f m .text ('\\' :: l :: hexDigits (width + 1) c.toNat ++ r) =
        quotedFrom false { text := c :: f.pending } (((m.skip 1).skip 1).skip (width + 1)) .text
          r := by
    rw [List.cons_append, List.cons_append, quotedFrom_escape hm, quotedFrom_sign hl hnone hwidth,
      quotedFrom_code _ _ hc, hadd]
  have hlarge : c.toNat < 16 ^ (7 + 1) := Nat.lt_of_lt_of_le c.val.toNat_lt (by decide)
  unfold doubleChar
  split
  · next hraw =>
    simp only [Bool.and_eq_true, Bool.not_eq_true', decide_eq_true_eq, ne_eq] at hraw
    obtain ⟨⟨⟨hprint, hbreak⟩, hquote⟩, hslash⟩ := hraw
    cases hb : isBlank c with
    | true =>
      obtain rfl := isBlank_of_isPrintable hprint hb
      refine ⟨f.addBlank ' ', m.skip 1, ?_, by simp [Folding.addBlank, hf],
        Folding.pending_addBlank hf ' ', Nat.succ_pos _, rfl⟩
      rw [List.singleton_append, quotedFrom, if_pos hb, Mark.after_of_not_break hbreak]
    | false =>
      refine ⟨{ text := c :: f.pending }, m.skip 1, ?_, rfl, rfl, Nat.succ_pos _, rfl⟩
      rw [List.singleton_append, quotedFrom_add hb hbreak hm (by simpa using hquote) (.inr hslash),
        Folding.add_eq]
  · split
    · next l hl =>
      obtain ⟨hescaped, hbreak⟩ := escaped?_of_letter hl
      refine ⟨{ text := c :: f.pending }, (m.skip 1).skip 1, ?_, rfl, rfl, Nat.succ_pos _, rfl⟩
      rw [List.cons_append, List.singleton_append, quotedFrom_escape hm, quotedFrom,
        if_neg (by simp [hbreak]), hescaped]
      simp only [hadd, Mark.after_of_not_break hbreak]
    · dsimp only
      split
      · exact ⟨_, _, hcode 'x' 1 rfl rfl rfl (by omega), rfl, rfl, Nat.succ_pos _, rfl⟩
      · split
        · exact ⟨_, _, hcode 'u' 3 rfl rfl rfl (by omega), rfl, rfl, Nat.succ_pos _, rfl⟩
        · exact ⟨_, _, hcode 'U' 7 rfl rfl rfl hlarge, rfl, rfl, Nat.succ_pos _, rfl⟩

/-- What is written between double quotes, from its midst on. -/
theorem quotedFrom_doubleChars (hf : f.broken = false) (hm : 0 < m.column) (s r : List Char) :
    ∃ m', quotedFrom false f m .text (s.flatMap doubleChar ++ '"' :: r) =
      some ⟨String.ofList (f.pending.reverse ++ s), m', r, false⟩ ∧ m'.line = m.line := by
  induction s generalizing f m with
  | nil =>
    have hzero : ¬ m.column = 0 := by omega
    refine ⟨m.skip 1, ?_, rfl⟩
    rw [List.flatMap_nil, List.nil_append, quotedFrom, if_neg (by decide), if_neg (by decide),
      if_neg (by simp [hzero]), if_neg (by simp), if_pos (by simp),
      Mark.after_of_not_break (by decide), List.append_nil]
    rfl
  | cons c s ih =>
    obtain ⟨f', m₁, hchar, hf', hpending, hm₁, hline₁⟩ :=
      quotedFrom_doubleChar hf hm c (s.flatMap doubleChar ++ '"' :: r)
    obtain ⟨m', hread, hline⟩ := ih hf' hm₁
    refine ⟨m', ?_, hline.trans hline₁⟩
    rw [List.flatMap_cons, List.append_assoc, hchar, hread, hpending]
    simp

/-- A text between double quotes, read at its own place. -/
theorem quotedFrom_double (hm : 0 < m.column) (s : List Char) (ht : Follows k t) :
    ∃ r, quotedFrom false {} m .text (s.flatMap doubleChar ++ '"' :: '\n' :: (spaces k ++ t)) =
        some r ∧
      Reads false m s k t r := by
  obtain ⟨m', hread, hline⟩ := quotedFrom_doubleChars (f := {}) rfl hm s ('\n' :: (spaces k ++ t))
  exact ⟨_, hread, rfl, List.suffix_refl _, reaches_line ht rfl (Nat.le_of_eq hline.symm)⟩

end Progression.Yaml
