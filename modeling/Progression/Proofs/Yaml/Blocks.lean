import Progression.Proofs.Yaml.Plain

/-!
Literal blocks that are read back from the text they are written with. The signs behind the
indicator say how deep the block is and what becomes of its last line ends; what is held back of
them counts with what has been read (`Block.pending`).
-/

namespace Progression.Yaml

variable {s t : List Char} {m : Mark} {k : Nat}

/-! ### Blocks -/

/-- What the signs of a block say about its end. -/
def chompingOf (s : List Char) : Chomping :=
  match s.reverse with
  | a :: b :: _ => if !isBreak a then .strip else if isBreak b then .keep else .clip
  | [a] => if isBreak a then .keep else .strip
  | [] => .strip

/-- What they say about its depth. -/
def stepOf (s : List Char) : Option Nat :=
  if s.head?.any (fun c => isSpace c || isBreak c) then some 2 else none

theorem blockSigns?_blockSigns (s r : List Char) :
    blockSigns? (blockSigns s ++ '\n' :: r) = some (chompingOf s, stepOf s, '\n' :: r) := by
  unfold blockSigns chompingOf stepOf
  cases s.head?.any fun c => isSpace c || isBreak c <;>
    rcases s.reverse with _ | ⟨a, _ | ⟨b, _⟩⟩ <;> dsimp only
  case false.nil | true.nil => rfl
  case false.cons.nil | true.cons.nil => cases isBreak a <;> rfl
  all_goals cases isBreak a <;> cases isBreak b <;> rfl

theorem chompingOf_concat (s : List Char) (a : Char) : chompingOf (s ++ [a]) =
    if isBreak a then (if s.getLast?.any fun c => !isBreak c then .clip else .keep)
    else .strip := by
  rcases List.eq_nil_or_concat s with rfl | ⟨s, b, rfl⟩
  · cases h : isBreak a <;> simp [chompingOf, h]
  · cases ha : isBreak a <;> cases hb : isBreak b <;> simp [chompingOf, ha, hb]

/-- What has been read of a block, in reverse. -/
def Block.pending (b : Block) : List Char := b.trailing ++ b.leading ++ b.text

/-- The block after a line end, in a line or at a column before one. -/
def Block.breakLine (b : Block) (inLine : Bool) (column : Nat) (c : Char) : Block :=
  if inLine then { b with leading := [c], trailing := [] }
  else { b with trailing := c :: b.trailing, widest := max b.widest column }

/-- The block after the first character of a line, at a column. -/
def Block.startLine (b : Block) (column : Nat) (c : Char) : Block :=
  { b with
    text := c :: b.pending, leading := [], trailing := [], wasBlank := isBlank c
    indent := some column }

/-- A block whose lines begin at a column, in a line or before one; as long as the column is not
known, it is to be found where the first line begins. -/
structure Block.Stands (column : Nat) (b : Block) (inLine : Bool) (m : Mark) (s : List Char) :
    Prop where
  fresh : inLine = true → b.leading = [] ∧ b.trailing = [] ∧ b.indent = some column
  start : inLine = false → m.column = 0
  indent : b.indent = some column ∨
    b.indent = none ∧ b.widest = 0 ∧ ∃ c ∈ s.head?, c ≠ ' ' ∧ isBreak c = false

section Blocks

variable {b : Block} {inLine : Bool} {column : Nat} {κ : BlockContext} {c : Char}

theorem blockFrom_spaces (hindent : b.indent = some column ∨ b.indent = none) {n : Nat}
    (hn : m.column + n ≤ column) (r : List Char) :
    blockFrom κ b false m (spaces n ++ r) = blockFrom κ b false (m.skip n) r := by
  induction n generalizing m with
  | zero => rfl
  | succ n ih =>
    have hcolumn : m.column < column := by omega
    have hnext : (m.skip 1).column + n ≤ column := by
      simp only [Mark.skip]
      omega
    have hskip : (m.skip 1).skip n = m.skip (n + 1) := by rw [Mark.skip_skip, Nat.add_comm]
    rw [spaces_succ, List.cons_append, blockFrom, if_neg (by simp), ← hskip, ← ih hnext]
    rcases hindent with h | h <;>
      simp [h, hcolumn, Mark.after_of_not_break (c := ' ') (by decide)]

/-- A block ends where a line is not deep enough. -/
theorem blockFrom_follows (hindent : b.indent = some column) (hm : m.column = 0) (hk : k < column)
    (ht : Follows k t) :
    blockFrom κ b false m (spaces k ++ t) = some ⟨b.result κ, m.skip k, t, false⟩ := by
  rw [blockFrom_spaces (.inl hindent) (by omega)]
  cases t with
  | nil => rfl
  | cons c t =>
    have hne := fun d => isNamePart_ne (d := d) (ht.head c rfl)
    have hcolumn : ¬ (m.skip k).column = column := by
      simp only [Mark.skip]
      omega
    simp [blockFrom, hne ' ' (by decide), hne '\t' (by decide), ht.not_break c rfl, hindent,
      hcolumn]

/-- A line end in a block. -/
theorem blockFrom_break (hc : isBreak c = true) (r : List Char) :
    blockFrom κ b inLine m (c :: r) =
      blockFrom κ (b.breakLine inLine m.column c) false (m.after c) r := by
  have hspace : c ≠ ' ' := by
    rintro rfl
    cases hc
  have htab : c ≠ '\t' := by
    rintro rfl
    cases hc
  cases inLine <;> simp [blockFrom, Block.breakLine, hc, hspace, htab]

/-- A character at the beginning of a line of a block. -/
theorem blockFrom_start (hliteral : κ.literal = true) (hleast : κ.least ≤ column)
    (hb : b.Stands column false m (c :: s)) (hc : isBreak c = false) (htab : c ≠ '\t')
    (r : List Char) : blockFrom κ b false m (spaces column ++ c :: r) =
      blockFrom κ (b.startLine column c) true ((m.skip column).skip 1) r := by
  have hcolumn : (m.skip column).column = column := by simp [Mark.skip, hb.start rfl]
  have hjoin : b.join κ c = b.pending := by simp [Block.join, Block.pending, hliteral]
  rw [blockFrom_spaces (hb.indent.imp id (·.1)) (by simp [hb.start rfl])]
  rcases hb.indent with h | ⟨h, hwidest, _, ⟨⟩, hspace, -⟩
  · simp [blockFrom, Block.startLine, hc, htab, h, hcolumn, hjoin, Mark.after_of_not_break hc]
  · simp [blockFrom, Block.startLine, hc, htab, h, hcolumn, hjoin, Mark.after_of_not_break hc,
      hwidest, hspace, Nat.max_eq_left hleast]

/-- One character of a block, with the column in front of it where a line begins. -/
theorem blockFrom_char (hliteral : κ.literal = true) (hleast : κ.least ≤ column)
    (hb : b.Stands column inLine m (c :: s)) (htab : c ≠ '\t') :
    ∃ b' m', (∀ r, blockFrom κ b inLine m (blockLines column (!inLine) (c :: s) ++ r) =
        blockFrom κ b' (!isBreak c) m' (blockLines column (isBreak c) s ++ r)) ∧
      b'.Stands column (!isBreak c) m' s ∧ b'.pending = c :: b.pending ∧ m.line ≤ m'.line ∧
      (isBreak c = true → m.line < m'.line ∧ (inLine = true → b'.trailing = [])) := by
  cases hc : isBreak c with
  | true =>
    have hline : (m.after c).line = m.line + 1 ∧ (m.after c).column = 0 := by simp [Mark.after, hc]
    have hknown : b.indent = some column := by
      rcases hb.indent with h | ⟨-, -, h⟩
      · exact h
      · obtain ⟨_, ⟨⟩, -, h⟩ := h
        rw [h] at hc
        cases hc
    refine ⟨b.breakLine inLine m.column c, m.after c, fun r => ?_,
      ⟨fun h => absurd h (by simp), fun _ => hline.2, .inl ?_⟩, ?_, by omega,
      fun _ => ⟨by omega, ?_⟩⟩
    · rw [blockLines, if_pos hc, List.cons_append, blockFrom_break hc]
      rfl
    · cases inLine <;> exact hknown
    · cases inLine with
      | true => simp [Block.breakLine, Block.pending, (hb.fresh rfl).1, (hb.fresh rfl).2.1]
      | false => simp [Block.breakLine, Block.pending]
    · rintro rfl
      rfl
  | false =>
    cases inLine with
    | true =>
      obtain ⟨hleading, htrailing, hindent⟩ := hb.fresh rfl
      refine ⟨{ b with text := c :: b.text }, m.skip 1, fun r => ?_,
        ⟨fun _ => ⟨hleading, htrailing, hindent⟩, fun h => absurd h (by simp), .inl hindent⟩, ?_,
        Nat.le_refl _, fun h => absurd h (by simp)⟩
      · rw [blockLines, if_neg (by simp [hc]), Bool.not_true, if_neg (by simp), List.nil_append,
          List.cons_append, blockFrom, if_pos rfl, if_neg (by simp [hc]),
          Mark.after_of_not_break hc]
        rfl
      · simp [Block.pending, hleading, htrailing]
    | false =>
      refine ⟨b.startLine column c, (m.skip column).skip 1, fun r => ?_,
        ⟨fun _ => ⟨rfl, rfl, rfl⟩, fun h => absurd h (by simp), .inl rfl⟩, rfl, Nat.le_refl _,
        fun h => absurd h (by simp)⟩
      rw [blockLines, if_neg (by simp [hc]), Bool.not_false, if_pos rfl, List.append_assoc,
        List.cons_append, blockFrom_start hliteral hleast hb hc htab]

/-- A part of a block. -/
theorem exists_blockFrom_lines (hliteral : κ.literal = true) (hleast : κ.least ≤ column)
    {s s' : List Char} (hb : b.Stands column inLine m (s ++ s')) (htab : '\t' ∉ s) :
    ∃ b' inLine' m', (∀ r, blockFrom κ b inLine m (blockLines column (!inLine) (s ++ s') ++ r) =
        blockFrom κ b' inLine' m' (blockLines column (!inLine') s' ++ r)) ∧
      b'.Stands column inLine' m' s' ∧ b'.pending = s.reverse ++ b.pending ∧ m.line ≤ m'.line ∧
      (s = [] ∧ inLine' = inLine ∨ ∃ c, s.getLast? = some c ∧ inLine' = !isBreak c) := by
  induction s generalizing b inLine m with
  | nil => exact ⟨b, inLine, m, fun _ => rfl, hb, rfl, Nat.le_refl _, .inl ⟨rfl, rfl⟩⟩
  | cons c s ih =>
    obtain ⟨hc, hs⟩ := List.ne_and_not_mem_of_not_mem_cons htab
    obtain ⟨b₁, m₁, hfirst, hb₁, hpending₁, hline₁, -⟩ :=
      blockFrom_char hliteral hleast hb (Ne.symm hc)
    obtain ⟨b₂, inLine₂, m₂, hothers, hb₂, hpending₂, hline₂, hlast⟩ := ih hb₁ hs
    rw [Bool.not_not] at hothers
    refine ⟨b₂, inLine₂, m₂, fun r => (hfirst r).trans (hothers r), hb₂, ?_, by omega, .inr ?_⟩
    · simp [hpending₂, hpending₁]
    · rcases hlast with ⟨rfl, h⟩ | ⟨d, hd, h⟩
      · exact ⟨c, rfl, h⟩
      · exact ⟨d, by rw [List.getLast?_cons, hd]; rfl, h⟩

theorem Block.result_eq_pending (h : κ.chomping = .keep ∨ κ.chomping = .clip ∧ b.trailing = []) :
    b.result κ = String.ofList b.pending.reverse := by
  rcases h with h | ⟨h, htrailing⟩
  · simp [Block.result, Block.pending, h]
  · simp [Block.result, Block.pending, h, htrailing]

theorem getLast?_blockLines (column : Nat) (afterBreak : Bool) (s : List Char) :
    (blockLines column afterBreak s).getLast? = s.getLast? := by
  induction s generalizing afterBreak with
  | nil => rfl
  | cons c s ih =>
    unfold blockLines
    split <;> simp [List.getLast?_append, List.getLast?_cons, ih]

theorem endLine_append {s s' : List Char} (h : s' ≠ []) : endLine (s ++ s') = s ++ endLine s' := by
  have hlast : (s ++ s').getLast? = s'.getLast? := by
    rw [List.getLast?_append, List.getLast?_eq_some_getLast h]
    rfl
  rw [endLine, endLine, hlast]
  split <;> simp

/-- A block of which a text has been read, before a line that may not belong to it. -/
structure Block.Holds (κ : BlockContext) (column : Nat) (b : Block) (m : Mark) (s : List Char) :
    Prop where
  indent : b.indent = some column
  start : m.column = 0
  result : b.result κ = String.ofList s

variable {a : Char}

/-- The lines of a text that does not end with a line end, and the end of the last one. -/
theorem exists_blockFrom_stripped (hliteral : κ.literal = true) (hleast : κ.least ≤ column)
    (hchomping : κ.chomping = chompingOf (s ++ [a])) (ha : isBreak a = false)
    (htab : '\t' ∉ s ++ [a]) (hb : b.Stands column false m (s ++ [a])) (hnil : b.pending = []) :
    ∃ b' m', (∀ r, blockFrom κ b false m (blockLines column true (s ++ [a]) ++ '\n' :: r) =
        blockFrom κ b' false m' r) ∧ b'.Holds κ column m' (s ++ [a]) ∧ m.line < m'.line := by
  have hstands : b.Stands column false m (s ++ [a] ++ []) := by rwa [List.append_nil]
  obtain ⟨b', inLine, m', hread, hb', hpending, hline, hend⟩ :=
    exists_blockFrom_lines hliteral hleast hstands htab
  obtain rfl : inLine = true := by
    rcases hend with ⟨h, -⟩ | ⟨c, hc, h⟩
    · simp at h
    · rw [List.getLast?_concat] at hc
      cases hc
      rw [h, ha]
      rfl
  obtain ⟨hleading, htrailing, hindent⟩ := hb'.fresh rfl
  have hstrip : κ.chomping = .strip := by
    rw [hchomping, chompingOf_concat, ha]
    rfl
  have htext : b'.text = (s ++ [a]).reverse := by
    rw [hnil, Block.pending, hleading, htrailing] at hpending
    simpa using hpending
  refine ⟨b'.breakLine true m'.column '\n', m'.after '\n', fun r => ?_, ⟨hindent, rfl, ?_⟩,
    Nat.lt_succ_of_le hline⟩
  · have h := hread ('\n' :: r)
    rw [List.append_nil] at h
    exact h.trans (blockFrom_break (by decide) r)
  · simp [Block.result, hstrip, Block.breakLine, htext]

/-- The lines of a text that ends with a line end. -/
theorem exists_blockFrom_ended (hliteral : κ.literal = true) (hleast : κ.least ≤ column)
    (hchomping : κ.chomping = chompingOf (s ++ [a])) (ha : isBreak a = true)
    (htab : '\t' ∉ s ++ [a]) (hb : b.Stands column false m (s ++ [a])) (hnil : b.pending = []) :
    ∃ b' m', (∀ r, blockFrom κ b false m (blockLines column true (s ++ [a]) ++ r) =
        blockFrom κ b' false m' r) ∧ b'.Holds κ column m' (s ++ [a]) ∧ m.line < m'.line := by
  obtain ⟨b₁, inLine, m₁, hread₁, hb₁, hpending₁, hline₁, hend⟩ :=
    exists_blockFrom_lines hliteral hleast hb (fun h => htab (by simp [h]))
  obtain ⟨b₂, m₂, hread₂, hb₂, hpending₂, -, hbreak⟩ := blockFrom_char hliteral hleast hb₁
    (fun h => htab (by simp [h]))
  obtain ⟨hline₂, htrailing⟩ := hbreak ha
  rw [ha] at hread₂ hb₂
  have hindent : b₂.indent = some column := by
    rcases hb₂.indent with h | ⟨-, -, _, ⟨⟩, -⟩
    exact h
  refine ⟨b₂, m₂, fun r => (hread₁ r).trans (hread₂ r), ⟨hindent, hb₂.start rfl, ?_⟩, by omega⟩
  rw [Block.result_eq_pending, hpending₂, hpending₁, hnil]
  · simp
  · -- the last line end is kept by itself behind a text, and with the others behind line ends
    rw [hchomping, chompingOf_concat, ha]
    rcases hend with ⟨rfl, -⟩ | ⟨c, hc, rfl⟩
    · exact .inl rfl
    · rw [hc]
      cases h : isBreak c with
      | true => exact .inl (by simp [h])
      | false => exact .inr ⟨by simp [h], htrailing (by simp [h])⟩

/-- The lines of a block, the last of which ends, and what follows them. -/
theorem exists_blockFrom_literal (hliteral : κ.literal = true) (hleast : κ.least ≤ column)
    (hchomping : κ.chomping = chompingOf s) (hs : s ≠ []) (htab : '\t' ∉ s)
    (hb : b.Stands column false m s) (hnil : b.pending = []) (hk : k < column) (ht : Follows k t) :
    ∃ m', blockFrom κ b false m (endLine (blockLines column true s) ++ (spaces k ++ t)) =
      some ⟨String.ofList s, m', t, false⟩ ∧ m'.column = k ∧ m.line < m'.line := by
  obtain ⟨init, a, rfl⟩ : ∃ init a, s = init ++ [a] :=
    ⟨s.dropLast, s.getLast hs, (List.dropLast_concat_getLast hs).symm⟩
  obtain ⟨b', m', hread, hholds, hline⟩ : ∃ b' m',
      (∀ r, blockFrom κ b false m (endLine (blockLines column true (init ++ [a])) ++ r) =
        blockFrom κ b' false m' r) ∧
      b'.Holds κ column m' (init ++ [a]) ∧ m.line < m'.line := by
    have hlast : (blockLines column true (init ++ [a])).getLast?.any isBreak = isBreak a := by
      rw [getLast?_blockLines, List.getLast?_concat]
      rfl
    rw [endLine, hlast]
    cases ha : isBreak a with
    | false =>
      simpa using exists_blockFrom_stripped hliteral hleast hchomping ha htab hb hnil
    | true => exact exists_blockFrom_ended hliteral hleast hchomping ha htab hb hnil
  refine ⟨m'.skip k, ?_, by simp [Mark.skip, hholds.start], hline⟩
  rw [hread, blockFrom_follows hholds.indent hholds.start hk ht, hholds.result]

end Blocks

/-- A literal block, read after its indicator. -/
theorem block?_literal {parent : Nat} (hs : s ≠ []) (hprint : ∀ c ∈ s, isPrintable c = true)
    (m : Mark) (hk : k < parent + 2) (ht : Follows k t) :
    ∃ r, block? true parent m (blockSigns s ++ '\n' ::
        (endLine (blockLines (parent + 2) true s) ++ (spaces k ++ t))) = some r ∧
      Reads true m s k t r := by
  have htab : '\t' ∉ s := fun h => absurd (hprint _ h) (by decide)
  let given := (stepOf s).map (parent + ·)
  obtain ⟨m₀, hm₀⟩ : ∃ m₀ : Mark, m₀ = m.skip (blockSigns s).length := ⟨_, rfl⟩
  have hread : ∀ r, block? true parent m (blockSigns s ++ '\n' :: r) =
      blockFrom ⟨true, given, parent + 1, chompingOf s⟩ { indent := given } false (m₀.after '\n')
        r := by
    intro r
    have hleast : (max (parent + 1 : Int) 1).toNat = parent + 1 := by omega
    have hgiven : (fun n => if (parent : Int) < 0 then n else (parent : Int).toNat + n) =
        (parent + ·) := funext fun _ => if_neg (by omega)
    have hline : ('\n' :: r).takeWhile (fun c => !isBreak c) = [] := rfl
    have hlength : (blockSigns s ++ '\n' :: r).length - ('\n' :: r).length =
        (blockSigns s).length := by
      rw [List.length_append]
      omega
    unfold block?
    rw [blockSigns?_blockSigns]
    simp only [Option.bind_eq_bind, Option.bind_some, hline, hleast, hgiven, hlength, hm₀]
    rfl
  have hstands : Block.Stands (parent + 2) { indent := given } false (m₀.after '\n') s := by
    refine ⟨nofun, fun _ => rfl, ?_⟩
    obtain ⟨c, s, rfl⟩ := List.exists_cons_of_ne_nil hs
    by_cases h : (isSpace c || isBreak c) = true
    · exact .inl (by simp [given, stepOf, h])
    · refine .inr ⟨by simp [given, stepOf, h], rfl, c, rfl, ?_⟩
      simpa [isSpace] using h
  obtain ⟨m', hlines, hcolumn, hline⟩ :=
    exists_blockFrom_literal (κ := ⟨true, given, parent + 1, chompingOf s⟩) rfl (Nat.le_succ _) rfl
      hs htab hstands rfl hk ht
  refine ⟨_, (hread _).trans hlines, rfl, suffix_line k t, reaches_here ht rfl hcolumn ?_⟩
  have hstart : (m₀.after '\n').line = m.line + 1 := by rw [hm₀]; rfl
  show m.line < m'.line
  omega

end Progression.Yaml
