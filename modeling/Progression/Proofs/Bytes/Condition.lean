import Progression.Proofs.Bytes.Text
import Progression.Proofs.Condition.Reading
import Progression.Proofs.Condition.Splitting

/-!
Conditions read over bytes. Texts are taken apart by offsets: the scan for connectives keeps the
offset where a piece begins, the offset where it stands and the depth of parentheses, a number of 32
bits.
-/

namespace Progression.Bytes

open Progression.Text Progression.Condition

/-! ### Connectives -/

/-- Whether a word and a blank stand at an offset. -/
def isJoined (word : List Char) (s : Bytes) (j : Nat) : Option Bool :=
  if j + size word < size s then do
    if isWord word (← span? (letters s) j (j + size word)) then
      return (← (letters s)[j + size word]?).any isAsciiBlank
    else return false
  else return false

/-- The pieces of a text from an offset on: the piece under way began at `start`. -/
def splitFrom (word : List Char) (s : Bytes) (i start : Nat) (depth : Int) (parts : List Bytes) :
    Option (List Bytes) :=
  if i < size s then do
    let b ← (letters s)[i]?
    if b = some '(' then
      let depth ← int32? (depth + 1)
      s |>.splitFrom word (i + 1) start depth parts
    else if b = some ')' then
      let depth ← int32? (depth - 1)
      s |>.splitFrom word (i + 1) start depth parts
    else if depth = 0 ∧ b.any isAsciiBlank then
      let j ← runEnd isAsciiBlank s i
      if ← isJoined word s j then
        let part ← slice? s start i
        let k ← runEnd isAsciiBlank s (j + size word)
        s |>.splitFrom word k k depth (parts ++ [part])
      else s |>.splitFrom word j start depth parts
    else s |>.splitFrom word (i + 1) start depth parts
  else do
    let part ← drop? s start
    return parts ++ [part]
partial_fixpoint

def split (word : List Char) (s : Bytes) : Option (List Bytes) := splitFrom word s 0 0 0 []

section Split

variable {word s p r before piece : List Char} {c : Char} {d : Int} {parts : List (List Char)}

theorem isJoined_append (hword : Ascii word) (p r : List Char) :
    isJoined word (p ++ r) (size p) = some (match afterWord? word r with
      | some (b :: _) => isAsciiBlank b
      | _ => false) := by
  by_cases hlt : size p + size word < size (p ++ r)
  · rw [isJoined, if_pos hlt, span?_letters p r (by omega), size_of_ascii hword]
    simp only [Option.bind_eq_bind, Option.bind_some, isWord_take hword]
    cases hr : afterWord? word r with
    | none => rfl
    | some t =>
      obtain ⟨w, hw, rfl⟩ := eq_of_afterWord? hr
      have hsize := size_of_sameLetters hword hw
      cases t with
      | nil => simp at hlt; omega
      | cons b t =>
        rw [← size_of_ascii hword, ← hsize, ← List.append_assoc, ← size_append,
          getElem?_letters_cons]
        simp [any_lead asciiKind_isAsciiBlank]
  · rw [isJoined, if_neg hlt]
    cases hr : afterWord? word r with
    | none => rfl
    | some t =>
      obtain ⟨w, hw, rfl⟩ := eq_of_afterWord? hr
      have hsize := size_of_sameLetters hword hw
      cases t with
      | nil => rfl
      | cons b t =>
        have := b.utf8Size_pos
        simp at hlt
        omega

/-! ### One step of the scan -/

theorem splitFrom_end (before piece : List Char) :
    splitFrom word (before ++ piece) (size (before ++ piece)) (size before) d parts =
      some (parts ++ [piece]) := by
  rw [splitFrom, if_neg (by simp), drop?_append]
  rfl

theorem splitFrom_parenthesis (hc : c = '(' ∨ c = ')') (hd : d.natAbs + 1 < 2 ^ 31) (start : Nat) :
    splitFrom word (p ++ c :: r) (size p) start d parts =
      splitFrom word (p ++ c :: r) (size (p ++ [c])) start (depthAfter d c) parts := by
  have hdepth : int32? (depthAfter d c) = some (depthAfter d c) :=
    int32?_eq_some (by unfold depthAfter; split_ifs <;> omega)
  have hsize : size (p ++ [c]) = size p + 1 := by
    rcases hc with rfl | rfl <;> simp [utf8Size_of_ascii]
  rw [splitFrom, if_pos (size_lt_append_cons ..), getElem?_letters_cons, hsize]
  rcases hc with rfl | rfl <;> simp [lead, depthAfter] at hdepth ⊢ <;> simp [hdepth]

theorem splitFrom_other (hc : c ≠ '(' ∧ c ≠ ')') (hb : d = 0 → isAsciiBlank c = false)
    (start : Nat) :
    splitFrom word (p ++ c :: r) (size p) start d parts =
      splitFrom word (p ++ c :: r) (size (p ++ [c])) start d parts := by
  have hblank : ¬ (d = 0 ∧ (lead c).any isAsciiBlank = true) := by
    rintro ⟨hd, h⟩
    rw [any_lead asciiKind_isAsciiBlank, hb hd] at h
    cases h
  have hskip : ∀ i, (letters (p ++ c :: r))[i]? = some (lead c) →
      splitFrom word (p ++ c :: r) i start d parts =
        splitFrom word (p ++ c :: r) (i + 1) start d parts := by
    intro i hi
    obtain ⟨hlt, -⟩ := List.getElem?_eq_some_iff.1 hi
    rw [length_letters] at hlt
    rw [splitFrom, if_pos hlt, hi]
    simp only [Option.bind_eq_bind, Option.bind_some, lead_eq_some_iff, hc, and_false, if_false,
      hblank]
  exact size_append_of_skips hskip

/-- Blanks outside of parentheses are passed together, up to the place where a connective may
be. -/
theorem splitFrom_blank (hc : isAsciiBlank c = true) {joined : Bool} {g : List Char}
    (hg : (c :: r).takeWhile isAsciiBlank = g)
    (hj : isJoined word (p ++ c :: r) (size (p ++ g)) = some joined) (start : Nat) :
    splitFrom word (p ++ c :: r) (size p) start 0 parts =
      if joined then do
        let part ← slice? (p ++ c :: r) start (size p)
        let k ← runEnd isAsciiBlank (p ++ c :: r) (size (p ++ g) + size word)
        splitFrom word (p ++ c :: r) k k 0 (parts ++ [part])
      else splitFrom word (p ++ c :: r) (size (p ++ g)) start 0 parts := by
  have hne : c ≠ '(' ∧ c ≠ ')' := by
    constructor <;> (rintro rfl; cases hc)
  have hspace := runEnd_append asciiKind_isAsciiBlank p (c :: r)
  rw [hg] at hspace
  have hlead := any_lead asciiKind_isAsciiBlank c
  rw [splitFrom, if_pos (size_lt_append_cons ..), getElem?_letters_cons]
  simp only [Option.bind_eq_bind, Option.bind_some, lead_eq_some_iff, hne, and_false, if_false,
    hlead, hc, and_self, if_true, hspace, hj]

/-- Blanks before no connective belong to the piece. -/
theorem splitFrom_of_none (hword : Ascii word) (hc : isAsciiBlank c = true)
    (h : afterConnective? word (c :: r) = none) (start : Nat) :
    splitFrom word (p ++ c :: r) (size p) start 0 parts =
      splitFrom word (p ++ c :: r) (size (p ++ (c :: r).takeWhile isAsciiBlank)) start 0 parts := by
  have hj := isJoined_append hword (p ++ (c :: r).takeWhile isAsciiBlank)
    ((c :: r).dropWhile isAsciiBlank)
  rw [List.append_assoc, List.takeWhile_append_dropWhile] at hj
  rw [splitFrom_blank hc rfl hj, if_neg]
  unfold afterConnective? at h
  intro hjoined
  split at hjoined
  · next hw =>
    rw [hw] at h
    simp only at h
    rw [if_pos hjoined] at h
    cases h
  · cases hjoined

/-- A connective ends the piece, and the next one begins behind it. -/
theorem splitFrom_of_some (before piece : List Char) (parts : List (List Char))
    (hword : Ascii word) (hc : isAsciiBlank c = true) {rest : List Char}
    (h : afterConnective? word (c :: r) = some rest) :
    ∃ g, g ++ rest = c :: r ∧
      splitFrom word (before ++ (piece ++ c :: r)) (size (before ++ piece)) (size before) 0 parts =
        splitFrom word (before ++ (piece ++ c :: r)) (size (before ++ (piece ++ g)))
          (size (before ++ (piece ++ g))) 0 (parts ++ [piece]) := by
  generalize hg : (c :: r).takeWhile isAsciiBlank = g
  generalize ht : (c :: r).dropWhile isAsciiBlank = t
  have hgt : g ++ t = c :: r := by rw [← hg, ← ht, List.takeWhile_append_dropWhile]
  have hj := isJoined_append hword (before ++ piece ++ g) t
  rw [List.append_assoc _ g, hgt] at hj
  unfold afterConnective? at h
  rw [ht] at h
  split at h
  · next b tail hw =>
    split at h
    · next hb =>
      cases h
      rw [hw] at hj
      simp only [hb] at hj
      obtain ⟨w, hsame, rfl⟩ := eq_of_afterWord? hw
      have hsize : size (before ++ piece ++ g) + size word = size (before ++ piece ++ g ++ w) := by
        rw [size_append _ w, size_of_sameLetters hword hsame]
      have hspace := runEnd_append asciiKind_isAsciiBlank (before ++ piece ++ g ++ w) (b :: tail)
      have hslice := slice?_eq_some (r := c :: r) rfl rfl (rfl : size (before ++ piece) = _)
      refine ⟨g ++ w ++ b :: tail.takeWhile isAsciiBlank, ?_, ?_⟩
      · rw [← hgt]
        simp [List.takeWhile_append_dropWhile]
      · rw [← List.append_assoc, splitFrom_blank hc hg hj, if_pos rfl, hsize]
        have htext : before ++ piece ++ g ++ w ++ b :: tail = before ++ (piece ++ c :: r) := by
          simp [← hgt]
        rw [htext] at hspace
        rw [List.append_assoc, hslice, hspace]
        simp [hb]
    · cases h
  · cases h

/-! ### The whole scan -/

/-- Blanks in front of no connective stay together. -/
theorem pieces_of_none (h : afterConnective? word r = none) :
    pieces word 0 r = (r.takeWhile isAsciiBlank ++ (pieces word 0 (r.dropWhile isAsciiBlank)).1,
      (pieces word 0 (r.dropWhile isAsciiBlank)).2) := by
  induction r with
  | nil => simp
  | cons c r ih =>
    by_cases hc : isAsciiBlank c = true
    · have hr : afterConnective? word r = none := by
        rw [← h, afterConnective?, afterConnective?, List.dropWhile_cons_of_pos hc]
      have hdepth : depthAfter 0 c = 0 := depthAfter_of_isBlank (isBlank_of_isAsciiBlank hc) 0
      rw [pieces_cons fun _ _ => h, hdepth, ih hr, List.takeWhile_cons_of_pos hc,
        List.dropWhile_cons_of_pos hc]
      rfl
    · rw [List.takeWhile_cons_of_neg hc, List.dropWhile_cons_of_neg hc]
      rfl

/-- From a depth on, the scan of a text finds the pieces of the text, the first of them behind what
has been passed of it. -/
def Scans (word : List Char) (d : Int) (r : List Char) : Prop :=
  ∀ before piece parts,
    splitFrom word (before ++ (piece ++ r)) (size (before ++ piece)) (size before) d parts =
      some (parts ++ (piece ++ (pieces word d r).1) :: (pieces word d r).2)

namespace Scans

theorem nil : Scans word d [] := by
  intro before piece parts
  rw [List.append_nil, splitFrom_end]
  simp [pieces]

/-- Behind a character that the piece keeps. -/
theorem next (h : Scans word d r) (before piece : List Char) (parts : List (List Char)) :
    splitFrom word (before ++ piece ++ c :: r) (size (before ++ piece ++ [c])) (size before) d
        parts =
      some (parts ++ (piece ++ c :: (pieces word d r).1) :: (pieces word d r).2) := by
  simpa using h before (piece ++ [c]) parts

theorem parenthesis (hc : c = '(' ∨ c = ')') (hd : d.natAbs + 1 < 2 ^ 31)
    (h : Scans word (depthAfter d c) r) : Scans word d (c :: r) := by
  intro before piece parts
  have hblank : isAsciiBlank c = false := by rcases hc with rfl | rfl <;> rfl
  rw [← List.append_assoc, splitFrom_parenthesis hc hd, h.next,
    pieces_cons fun _ hc => by rw [hblank] at hc; cases hc]

theorem other (hc : c ≠ '(' ∧ c ≠ ')') (hb : d = 0 → isAsciiBlank c = false)
    (h : Scans word d r) : Scans word d (c :: r) := by
  intro before piece parts
  have hdepth : depthAfter d c = d := by simp [depthAfter, hc]
  have hpieces : pieces word d (c :: r) = (c :: (pieces word d r).1, (pieces word d r).2) := by
    rw [pieces_cons, hdepth]
    intro hd hblank
    rw [hb hd] at hblank
    cases hblank
  rw [← List.append_assoc, splitFrom_other hc hb, h.next, hpieces]

theorem blanks (hword : Ascii word) (hc : isAsciiBlank c = true)
    (hnone : afterConnective? word (c :: r) = none)
    (h : Scans word 0 ((c :: r).dropWhile isAsciiBlank)) : Scans word 0 (c :: r) := by
  intro before piece parts
  have := h before (piece ++ (c :: r).takeWhile isAsciiBlank) parts
  rw [List.append_assoc, List.takeWhile_append_dropWhile, ← List.append_assoc,
    ← List.append_assoc] at this
  rw [← List.append_assoc, splitFrom_of_none hword hc hnone, this, pieces_of_none hnone,
    List.append_assoc]

theorem connective (hword : Ascii word) (hc : isAsciiBlank c = true) {rest : List Char}
    (hsome : afterConnective? word (c :: r) = some rest) (h : Scans word 0 rest) :
    Scans word 0 (c :: r) := by
  intro before piece parts
  obtain ⟨g, hg, hstep⟩ := splitFrom_of_some before piece parts hword hc hsome
  have := h (before ++ (piece ++ g)) [] (parts ++ [piece])
  rw [List.append_nil, List.nil_append, List.append_assoc, List.append_assoc, hg] at this
  rw [hstep, this, pieces_of_connective hc hsome]
  simp

end Scans

theorem scans (hword : Ascii word) (hd : d.natAbs + size r < 2 ^ 31) : Scans word d r := by
  induction hl : r.length using Nat.strong_induction_on generalizing d r with
  | _ n ih =>
    subst hl
    cases r with
    | nil => exact .nil
    | cons c r =>
      have hpos := c.utf8Size_pos
      have hsize := size_cons c r
      have hnext : ∀ e : Int, e.natAbs ≤ d.natAbs + 1 → Scans word e r := fun e he =>
        ih r.length (by simp) (by omega) rfl
      by_cases hpar : c = '(' ∨ c = ')'
      · have hdepth : (depthAfter d c).natAbs ≤ d.natAbs + 1 := by
          unfold depthAfter
          split_ifs <;> omega
        exact .parenthesis hpar (by omega) (hnext _ hdepth)
      by_cases hblank : d = 0 ∧ isAsciiBlank c = true
      · obtain ⟨rfl, hc⟩ := hblank
        cases hr : afterConnective? word (c :: r) with
        | none =>
          have hlen : ((c :: r).dropWhile isAsciiBlank).length < (c :: r).length := by
            rw [List.dropWhile_cons_of_pos hc]
            exact Nat.lt_succ_of_le (length_dropWhile_le _ _)
          have := size_le_of_sublist (List.dropWhile_sublist isAsciiBlank (l := c :: r))
          exact .blanks hword hc hr (ih _ hlen (by omega) rfl)
        | some rest =>
          obtain ⟨g, -, hg⟩ := isConnective_of_afterConnective? hc hr
          have hrest := congrArg size hg
          rw [size_append] at hrest
          exact .connective hword hc hr (ih _ (length_of_afterConnective? hr) (by omega) rfl)
      · exact .other (not_or.1 hpar) (fun h => by simpa using fun hc => hblank ⟨h, hc⟩)
          (hnext d (by omega))

theorem split_eq (hword : Ascii word) (hs : size s < 2 ^ 31) :
    split word s = some (Condition.split word s) := by
  have hscan : Scans word 0 s := scans hword (by simpa using hs)
  simpa [split, Condition.split] using hscan [] [] []

end Split

/-! ### Negations and groups -/

def negated (s : Bytes) : Option (Option Bytes) :=
  match take? s 3 with
  | none => return none
  | some head =>
    if sameLetters head "not".toList then do
      let rest ← drop? s 3
      match (letters rest).head? with
      | some b => return if b.any isAsciiBlank ∨ b = some '(' then some (trimLeft rest) else none
      | none => return none
    else return none

/-- The scan of the bytes of a text for the parenthesis that closes it, which must be its last
byte. -/
def closesFrom (s : Bytes) : List (Option Char) → Nat → Int → Option Bool
  | [], _, depth => return depth == 0
  | b :: bs, i, depth =>
    if b = some '(' then do
      let depth ← int32? (depth + 1)
      closesFrom s bs (i + 1) depth
    else if b = some ')' then do
      let depth ← int32? (depth - 1)
      if depth = 0 then
        if i ≠ (← minus? (size s) 1) then return false else closesFrom s bs (i + 1) depth
      else closesFrom s bs (i + 1) depth
    else closesFrom s bs (i + 1) depth

def group (s : Bytes) : Option (Option Bytes) :=
  if s.head? = some '(' ∧ s.getLast? = some ')' then do
    if ← closesFrom s (letters s) 0 0 then
      let inner ← slice? s 1 (← minus? (size s) 1)
      return some inner
    else return none
  else return none

section Group

variable {s t r : List Char} {c : Char} {d : Nat}

theorem ascii_not : Ascii "not".toList := by unfold Ascii; decide

theorem negated_eq (s : List Char) : negated s = some (negated? s) := by
  have hthree : size "not".toList = 3 := size_of_ascii ascii_not
  have hsplit := afterWord?_eq_splitAt? ascii_not s
  rw [hthree] at hsplit
  unfold negated negated? take? drop?
  rw [hsplit]
  cases splitAt? s 3 with
  | none => rfl
  | some p =>
    obtain ⟨head, r⟩ := p
    simp only [Option.map_some, Option.bind_some, Option.bind_eq_bind]
    split
    · cases r with
      | nil => rfl
      | cons c r =>
        have hparenthesis : lead c = some '(' ↔ c = '(' := by
          rw [lead_eq_some_iff, and_iff_right_iff_imp]
          rintro rfl
          decide
        simp [head?_letters_cons, any_lead asciiKind_isAsciiBlank, hparenthesis]
    · rfl

/-- A scan goes over bytes that are no parentheses. -/
theorem closesFrom_replicate {x : Option Char} (hx : x ≠ some '(' ∧ x ≠ some ')') (k : Nat)
    (bs : List (Option Char)) (i : Nat) (d : Int) :
    closesFrom s (List.replicate k x ++ bs) i d = closesFrom s bs (i + k) d := by
  induction k generalizing i with
  | zero => rfl
  | succ k ih =>
    rw [List.replicate_succ, List.cons_append, closesFrom, if_neg hx.1, if_neg hx.2, ih,
      Nat.add_right_comm]
    rfl

theorem closed?_other (ho : c ≠ '(') (hc : c ≠ ')') (d : Nat) (t : List Char) :
    closed? d (c :: t) = (closed? d t).map (c :: ·) := by
  rw [closed?.eq_def]
  simp [ho, hc]

theorem closed?_closing (hd : d ≠ 1) (t : List Char) :
    closed? d (')' :: t) = (closed? (d - 1) t).map (')' :: ·) := by
  rw [closed?.eq_def]
  simp [hd]

theorem closed?_one (ht : t ≠ []) : closed? 1 (')' :: t) = none := by
  rw [closed?.eq_def]
  simp

/-- Inside of a group, the scan of the bytes closes it where the scan of the characters does. -/
theorem closesFrom_letters {i : Nat} (hpos : 0 < d) (hd : d + size t + 1 < 2 ^ 31)
    (hs : size s = i + size t + 1) :
    closesFrom s (letters (t ++ [')'])) i d = some (closed? d (t ++ [')'])).isSome := by
  have hclosing : ∀ r, letters (')' :: r) = some ')' :: letters r :=
    letters_cons_of_ascii (by decide)
  have hopening : ∀ r, letters ('(' :: r) = some '(' :: letters r :=
    letters_cons_of_ascii (by decide)
  induction t generalizing i d with
  | nil =>
    rw [List.nil_append, hclosing, closesFrom, if_neg (by decide), if_pos rfl,
      int32?_eq_some (by omega)]
    obtain rfl | hd1 := eq_or_ne d 1
    · simp [closed?, closesFrom, minus?, hs]
    · have hne : ((d : Int) - 1) ≠ 0 := by omega
      rw [closed?_closing hd1]
      simp [closed?, closesFrom, hne]
  | cons c t ih =>
    rw [List.cons_append]
    rw [size_cons] at hs hd
    have hfurther : c.utf8Size = 1 → ∀ e, 0 < e → e ≤ d + 1 →
        closesFrom s (letters (t ++ [')'])) (i + 1) e = some (closed? e (t ++ [')'])).isSome :=
      fun hone e he hle => ih he (by omega) (by omega)
    by_cases ho : c = '('
    · subst ho
      have := hfurther (utf8Size_of_ascii (by decide)) (d + 1) (by omega) le_rfl
      rw [hopening, closesFrom, if_pos rfl, int32?_eq_some (by omega)]
      simpa [closed?] using this
    by_cases hc : c = ')'
    · subst hc
      have hone : ')'.utf8Size = 1 := utf8Size_of_ascii (by decide)
      rw [hclosing, closesFrom, if_neg (by decide), if_pos rfl, int32?_eq_some (by omega)]
      obtain rfl | hd1 := eq_or_ne d 1
      · -- The group ends before the last byte.
        have hlast : i ≠ size s - 1 := by omega
        rw [closed?_one (by simp)]
        simp [minus?, show 1 ≤ size s by omega, hlast]
      · have hne : ((d : Int) - 1) ≠ 0 := by omega
        have hcast : ((d : Int) - 1) = ((d - 1 : Nat) : Int) := by omega
        have := hfurther hone (d - 1) (by omega) (by omega)
        rw [closed?_closing hd1]
        simp only [Option.bind_eq_bind, Option.bind_some, hne, if_false]
        rw [hcast, this, Option.isSome_map]
    · have hlead : lead c ≠ some '(' ∧ lead c ≠ some ')' := by simp [ho, hc]
      rw [letters_cons, closesFrom_replicate hlead, closed?_other ho hc, Option.isSome_map]
      exact ih hpos (by omega) (by omega)

theorem eq_of_closed? {inner : List Char} (h : closed? d t = some inner) : t = inner ++ [')'] := by
  fun_induction closed? d t generalizing inner with
  | case1 => cases h
  | case2 d cs ih =>
    obtain ⟨r, hr, rfl⟩ := Option.map_eq_some_iff.1 h
    rw [ih hr, List.cons_append]
  | case3 => cases h; rfl
  | case4 => cases h
  | case5 d cs _ _ _ ih =>
    obtain ⟨r, hr, rfl⟩ := Option.map_eq_some_iff.1 h
    rw [ih hr, List.cons_append]
  | case6 d c cs _ _ ih =>
    obtain ⟨r, hr, rfl⟩ := Option.map_eq_some_iff.1 h
    rw [ih hr, List.cons_append]

theorem exists_of_ends (hhead : s.head? = some '(') (hlast : s.getLast? = some ')') :
    ∃ t, s = '(' :: (t ++ [')']) := by
  cases s with
  | nil => cases hhead
  | cons c u =>
    cases hhead
    rcases List.eq_nil_or_concat u with rfl | ⟨t, x, rfl⟩
    · cases hlast
    · rw [List.concat_eq_append] at hlast ⊢
      rw [List.getLast?_cons, List.getLast?_concat] at hlast
      cases hlast
      exact ⟨t, rfl⟩

theorem group?_eq_none (h : ¬ (s.head? = some '(' ∧ s.getLast? = some ')')) : group? s = none := by
  rw [Option.eq_none_iff_forall_ne_some]
  intro inner hinner
  unfold group? at hinner
  split at hinner
  · refine h ⟨rfl, ?_⟩
    rw [eq_of_closed? hinner, ← List.cons_append, List.getLast?_concat]
  · cases hinner

theorem size_group (t : List Char) : size ('(' :: (t ++ [')'])) = size t + 2 := by
  have ho : '('.utf8Size = 1 := utf8Size_of_ascii (by decide)
  have hc : ')'.utf8Size = 1 := utf8Size_of_ascii (by decide)
  rw [size_cons, size_append, size_cons, size_nil, ho, hc]
  omega

/-- From its first parenthesis on, the scan says whether the last one closes it. -/
theorem closesFrom_group (ht : size t + 2 < 2 ^ 31) :
    closesFrom ('(' :: (t ++ [')'])) (letters ('(' :: (t ++ [')']))) 0 0 =
      some (closed? 1 (t ++ [')'])).isSome := by
  have hsize := size_group t
  rw [letters_cons_of_ascii (by decide), closesFrom, if_pos rfl, int32?_eq_some (by decide)]
  exact closesFrom_letters (d := 1) (by decide) (by omega) (by omega)

theorem slice?_group (t : List Char) : slice? ('(' :: (t ++ [')'])) 1 (size t + 1) = some t := by
  have ho : '('.utf8Size = 1 := utf8Size_of_ascii (by decide)
  exact slice?_eq_some (p := ['(']) (r := [')']) rfl (by simp [ho]) (by simp [ho, Nat.add_comm])

theorem group_eq (hs : size s < 2 ^ 31) : group s = some (group? s) := by
  unfold group
  split
  · next hends =>
    obtain ⟨t, rfl⟩ := exists_of_ends hends.1 hends.2
    have hsize := size_group t
    have hminus : minus? (size t + 2) 1 = some (size t + 1) := by simp [minus?]
    rw [closesFrom_group (by omega), hsize, group?]
    simp only [Option.bind_eq_bind, Option.bind_some]
    cases hin : closed? 1 (t ++ [')']) with
    | none => rfl
    | some inner =>
      obtain rfl := List.append_cancel_right (eq_of_closed? hin)
      simp [hminus, slice?_group]
  · next hends =>
    rw [group?_eq_none hends]
    rfl

end Group

/-! ### The reader -/

def condition (s : Bytes) : Option Condition := do
  let s := trim s
  let parts ← split "or".toList s
  if 1 < parts.length then
    return .any (← parts.mapM (· |>.condition))
  let parts ← split "and".toList s
  if 1 < parts.length then
    return .all (← parts.mapM (· |>.condition))
  match ← negated s with
  | some rest => return .not (← rest |>.condition)
  | none =>
    match ← group s with
    | some inner => inner |>.condition
    | none => return leaf s
partial_fixpoint

theorem infix_of_separated {word before t p : List Char} {ps : List (List Char)}
    (h : Separated word before ps t) (hp : p ∈ ps) : p <:+: t := by
  induction h with
  | last =>
    obtain rfl := List.mem_singleton.1 hp
    exact List.infix_refl _
  | more _ _ _ ih =>
    rcases List.mem_cons.1 hp with rfl | hp
    · exact (List.prefix_append ..).isInfix
    · exact ((ih hp).trans (List.suffix_append ..).isInfix).trans (List.suffix_append ..).isInfix

theorem ascii_or : Ascii "or".toList := by unfold Ascii; decide

theorem ascii_and : Ascii "and".toList := by unfold Ascii; decide

theorem sublist_of_negated? {s rest : List Char} (h : negated? s = some rest) :
    rest.Sublist s := by
  unfold negated? at h
  split at h
  · next c r hw =>
    obtain ⟨w, -, rfl⟩ := eq_of_afterWord? hw
    split at h
    · cases h
      exact (List.dropWhile_sublist isBlank).trans (List.sublist_append_right ..)
    · cases h
  · cases h

theorem sublist_of_group? {s inner : List Char} (h : group? s = some inner) :
    inner.Sublist s := by
  unfold group? at h
  split at h
  · rw [eq_of_closed? h]
    exact (List.sublist_append_left ..).trans (List.sublist_cons_self ..)
  · cases h

theorem trim_sublist (s : List Char) : (trim s).Sublist s := by
  have hright : ∀ s : List Char, (trimRight s).Sublist s := fun s => by
    simpa [trimRight] using (List.dropWhile_sublist isBlank (l := s.reverse)).reverse
  exact (hright _).trans (List.dropWhile_sublist isBlank)

theorem size_le_of_mem_split {word s p : List Char} (hword : ∀ c ∈ word, c.isAlpha = true)
    (hp : p ∈ Condition.split word s) : size p ≤ size s :=
  size_le_of_sublist (infix_of_separated (separated_pieces hword [] [] rfl) hp).sublist

theorem mapM_eq {parts : List (List Char)} (h : ∀ p ∈ parts, condition p = some (ofText p)) :
    parts.mapM condition = some (parts.map ofText) := by
  induction parts with
  | nil => rfl
  | cons p parts ih =>
    obtain ⟨hp, hparts⟩ := List.forall_mem_cons.1 h
    rw [List.mapM_cons, hp, ih hparts]
    rfl

theorem condition_eq {s : List Char} (hs : size s < 2 ^ 31) : condition s = some (ofText s) := by
  induction hl : s.length using Nat.strong_induction_on generalizing s with
  | _ n ih =>
    subst hl
    have htrim : size (trim s) ≤ size s := size_le_of_sublist (trim_sublist s)
    have hread : ∀ t : List Char, t.length < (trim s).length → size t ≤ size (trim s) →
        condition t = some (ofText t) := fun t hlen hsize =>
      ih t.length (by have := length_trim_le s; omega) (by omega) rfl
    have hor : ∀ c ∈ "or".toList, c.isAlpha = true := by decide
    have hand : ∀ c ∈ "and".toList, c.isAlpha = true := by decide
    rw [condition, ofText_eq, split_eq ascii_or (by omega), split_eq ascii_and (by omega),
      negated_eq, group_eq (by omega)]
    simp only [Option.bind_eq_bind, Option.pure_def, Option.bind_some]
    split
    · next hlen =>
      rw [mapM_eq fun p hp =>
        hread p (length_lt_of_mem_split hp hlen) (size_le_of_mem_split hor hp)]
      rfl
    split
    · next hlen =>
      rw [mapM_eq fun p hp =>
        hread p (length_lt_of_mem_split hp hlen) (size_le_of_mem_split hand hp)]
      rfl
    cases hn : negated? (trim s) with
    | some rest =>
      have := hread rest (length_of_negated? hn) (size_le_of_sublist (sublist_of_negated? hn))
      simp [this]
    | none =>
      cases hg : group? (trim s) with
      | some inner =>
        exact hread inner (length_of_group? hg) (size_le_of_sublist (sublist_of_group? hg))
      | none => rfl

/-! ### Escapes -/

theorem size_replace_le {mark other : List Char} (hne : mark ≠ []) (h : size other ≤ size mark)
    (s : List Char) : size (replace mark other s) ≤ size s := by
  induction s using replace_induction hne with
  | nil => rw [replace_nil hne]
  | mark_append s ih =>
    rw [replace_append hne, size_append, size_append]
    omega
  | cons c s hc ih =>
    rw [replace_cons hne hc, size_cons, size_cons]
    omega

theorem size_unescape_le (s : List Char) : size (unescape s) ≤ size s := by
  have hunescape : ∀ mark ∈ ["&lt;".toList, "&gt;".toList, "&amp;".toList],
      ∀ x ∈ ['<', '>', '&'], ∀ s, size (replace mark [x] s) ≤ size s := by
    intro mark hm x hx s
    have hmark : Ascii mark ∧ mark ≠ [] ∧ 4 ≤ mark.length := by
      revert mark
      unfold Ascii
      decide
    have hone : x.utf8Size = 1 := utf8Size_of_ascii (by revert x; decide)
    refine size_replace_le hmark.2.1 ?_ s
    rw [size_of_ascii hmark.1, size_cons, hone, size_nil]
    omega
  unfold unescape
  have h1 := hunescape "&amp;".toList (by simp) '&' (by simp)
    (replace "&gt;".toList ['>'] (replace "&lt;".toList ['<'] s))
  have h2 := hunescape "&gt;".toList (by simp) '>' (by simp) (replace "&lt;".toList ['<'] s)
  have h3 := hunescape "&lt;".toList (by simp) '<' (by simp) s
  omega

def parse (s : String) : Option Condition := condition (trim (unescape s.toList))

theorem parse_eq {s : String} (hs : size s.toList < 2 ^ 31) :
    parse s = some (Condition.parse s) := by
  have := size_le_of_sublist (trim_sublist (unescape s.toList))
  have := size_unescape_le s.toList
  exact condition_eq (by omega)

end Progression.Bytes
