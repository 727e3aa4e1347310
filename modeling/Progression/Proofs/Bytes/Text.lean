import Mathlib.Algebra.Group.Int.Defs
import Mathlib.Algebra.Group.Nat.Defs
import Progression.Proofs.Text

/-!
Texts as bytes. A text is stored in UTF-8, and a place in it is a number of bytes. To cut a text off
the boundary of a character, or to look at a byte behind the end, is an error; here the answer is
then `none`. A loop over offsets is a least fixed point, which has the answer `none` where the loop
does not end, so an answer also says that it ends.

A byte is looked at only to tell which ASCII character it is, if any (`letter`): an ASCII character
is one such byte, and any other character is several bytes that are no ASCII character
(`letters_cons`). So what stands at an offset is known from the text behind it, and
`size_append_of_skips` takes a loop over a character that means nothing to it.
-/

namespace Progression

open Progression.Text

/-- A text of which the bytes are read. -/
abbrev Bytes := List Char

namespace Bytes

/-- The bytes of a text. -/
def encode (s : Bytes) : List UInt8 := s.flatMap String.utf8EncodeChar

def size (s : Bytes) : Nat := (encode s).length

/-- The ASCII character that a byte is. -/
def letter (b : UInt8) : Option Char := if b < 128 then some (Char.ofNat b.toNat) else none

/-- The bytes of a text, each as the ASCII character it is. -/
def letters (s : Bytes) : List (Option Char) := (encode s).map letter

/-! ### Cutting -/

/-- The two parts of a text at an offset, which must be on the boundary of a character. -/
def splitAt? : Bytes → Nat → Option (Bytes × Bytes)
  | s, 0 => some ([], s)
  | [], _ + 1 => none
  | c :: cs, n + 1 =>
    if c.utf8Size ≤ n + 1 then (splitAt? cs (n + 1 - c.utf8Size)).map fun (a, b) => (c :: a, b)
    else none

def take? (s : Bytes) (n : Nat) : Option Bytes := (splitAt? s n).map (·.1)

def drop? (s : Bytes) (n : Nat) : Option Bytes := (splitAt? s n).map (·.2)

/-- The text between two offsets. -/
def slice? (s : Bytes) (i j : Nat) : Option Bytes :=
  if i ≤ j then do take? (← drop? s i) (j - i) else none

/-- The bytes between two offsets. -/
def span? {α : Type} (bs : List α) (i j : Nat) : Option (List α) :=
  if i ≤ j ∧ j ≤ bs.length then some ((bs.take j).drop i) else none

/-- The offset of a mark. -/
def find (mark : List Char) (s : Bytes) : Option Nat :=
  (cut? mark s).map fun (before, _) => size before

/-- A signed number of 32 bits. -/
def int32? (n : Int) : Option Int := if -2 ^ 31 ≤ n ∧ n < 2 ^ 31 then some n else none

/-- A difference of offsets, which must not be negative. -/
def minus? (m n : Nat) : Option Nat := if n ≤ m then some (m - n) else none

/-- The line of an offset; behind the end it is the last one. -/
def lineOf (s : Bytes) (offset : Nat) : Option Nat := do
  let before ← span? (letters s) 0 (min offset (size s))
  return 1 + before.count (some '\n')

/-- The offset behind the bytes of a kind. -/
def runEnd (k : Char → Bool) (s : Bytes) (i : Nat) : Option Nat :=
  if i < size s then do
    if (← (letters s)[i]?).any k then s |>.runEnd k (i + 1) else return i
  else return i
partial_fixpoint

/-! ### Characters and bytes -/

variable {s p r : List Char} {c : Char} {n : Nat}

@[simp] theorem size_nil : size [] = 0 := rfl

@[simp] theorem size_append (s t : List Char) : size (s ++ t) = size s + size t := by
  simp [size, encode]

@[simp] theorem size_cons (c : Char) (s : List Char) : size (c :: s) = c.utf8Size + size s := by
  simp [size, encode, String.length_utf8EncodeChar]

theorem size_lt_append_cons (p : List Char) (c : Char) (r : List Char) :
    size p < size (p ++ c :: r) := by
  have := c.utf8Size_pos
  rw [size_append, size_cons]
  omega

theorem size_pos {s : List Char} (h : s ≠ []) : 0 < size s := by
  obtain ⟨c, s, rfl⟩ := List.exists_cons_of_ne_nil h
  simpa using size_lt_append_cons [] c s

theorem length_letters (s : List Char) : (letters s).length = size s := by simp [letters, size]

/-- The bytes of a string are the bytes of its text. -/
theorem toByteArray_encode (s : String) : (encode s.toList).toByteArray = s.toByteArray := by
  obtain ⟨t, rfl⟩ : ∃ t, s = String.ofList t := ⟨s.toList, String.ofList_toList.symm⟩
  rw [String.toByteArray_ofList, String.toList_ofList]
  rfl

theorem size_toList (s : String) : size s.toList = s.utf8ByteSize := by
  show _ = s.toByteArray.size
  rw [← toByteArray_encode, List.size_toByteArray]
  rfl

theorem size_le_of_sublist {s t : List Char} (h : s.Sublist t) : size s ≤ size t := by
  induction h with
  | slnil => exact le_rfl
  | cons c _ ih => rw [size_cons]; omega
  | cons_cons c _ ih => rw [size_cons, size_cons]; omega

theorem utf8Size_of_ascii (h : c.toNat < 128) : c.utf8Size = 1 := by
  rw [Char.utf8Size_eq_one_iff, UInt32.le_iff_toNat_le]
  show c.toNat ≤ 127
  omega

/-- The bytes of a character that is not an ASCII character are high. -/
theorem exists_of_mem_utf8EncodeChar {b : UInt8} (hb : b ∈ String.utf8EncodeChar c)
    (hc : 127 < c.toNat) : ∃ n, 127 < n ∧ n < 256 ∧ b = UInt8.ofNat n := by
  have hval : c.val.toNat = c.toNat := rfl
  unfold String.utf8EncodeChar at hb
  simp only [hval] at hb
  rw [if_neg (by omega)] at hb
  split at hb
  · simp only [List.mem_cons, List.not_mem_nil, or_false] at hb
    rcases hb with rfl | rfl <;> exact ⟨_, by omega, by omega, rfl⟩
  · split at hb <;> simp only [List.mem_cons, List.not_mem_nil, or_false] at hb
    · rcases hb with rfl | rfl | rfl <;> exact ⟨_, by omega, by omega, rfl⟩
    · rcases hb with rfl | rfl | rfl | rfl <;> exact ⟨_, by omega, by omega, rfl⟩

/-- What every byte of a character is. -/
def lead (c : Char) : Option Char := if c.toNat < 128 then some c else none

theorem letter_ofNat (hn : n < 256) :
    letter (UInt8.ofNat n) = if n < 128 then some (Char.ofNat n) else none := by
  have hto : (UInt8.ofNat n).toNat = n := Nat.mod_eq_of_lt hn
  simp only [letter, UInt8.lt_iff_toNat_lt, hto, UInt8.reduceToNat]

theorem letter_of_mem {b : UInt8} (hb : b ∈ String.utf8EncodeChar c) : letter b = lead c := by
  by_cases hc : c.toNat < 128
  · rw [String.utf8EncodeChar_eq_singleton (utf8Size_of_ascii hc), List.mem_singleton] at hb
    have hbyte : b = UInt8.ofNat c.toNat := hb
    rw [hbyte, letter_ofNat (by omega), if_pos hc, Char.ofNat_toNat, lead, if_pos hc]
  · obtain ⟨n, hn, hlt, rfl⟩ := exists_of_mem_utf8EncodeChar hb (by omega)
    rw [letter_ofNat hlt, if_neg (by omega), lead, if_neg hc]

@[simp] theorem letters_nil : letters [] = [] := rfl

theorem letters_cons (c : Char) (s : List Char) :
    letters (c :: s) = List.replicate c.utf8Size (lead c) ++ letters s := by
  have hbytes : (String.utf8EncodeChar c).map letter = List.replicate c.utf8Size (lead c) := by
    rw [List.eq_replicate_iff]
    refine ⟨by simp [String.length_utf8EncodeChar], fun x hx => ?_⟩
    obtain ⟨b, hb, rfl⟩ := List.mem_map.1 hx
    exact letter_of_mem hb
  simp [letters, encode, hbytes]

theorem letters_append (s t : List Char) : letters (s ++ t) = letters s ++ letters t := by
  simp [letters, encode]

theorem letters_cons_of_ascii (h : c.toNat < 128) (s : List Char) :
    letters (c :: s) = some c :: letters s := by
  rw [letters_cons, utf8Size_of_ascii h, lead, if_pos h]
  rfl

@[simp] theorem lead_eq_some_iff {x : Char} : lead c = some x ↔ c.toNat < 128 ∧ c = x := by
  simp [lead]

theorem lead_of_ascii (h : c.toNat < 128) : lead c = some c := if_pos h

theorem lead_of_not_ascii (h : ¬ c.toNat < 128) : lead c = none := if_neg h

/-! ### Cutting at a boundary -/

theorem splitAt?_eq_some_iff {a b : List Char} :
    splitAt? s n = some (a, b) ↔ s = a ++ b ∧ size a = n := by
  fun_induction splitAt? s n generalizing a b with
  | case1 s =>
    constructor
    · intro h
      cases h
      exact ⟨rfl, rfl⟩
    · rintro ⟨rfl, h⟩
      cases a with
      | nil => rfl
      | cons c a =>
        have := c.utf8Size_pos
        rw [size_cons] at h
        omega
  | case2 n =>
    simp only [reduceCtorEq, List.nil_eq_append_iff, false_iff, not_and]
    rintro ⟨rfl, -⟩ h
    cases h
  | case3 c s n hn ih =>
    simp only [Option.map_eq_some_iff, Prod.exists, ih, Prod.mk.injEq]
    constructor
    · rintro ⟨a, b, ⟨rfl, hsize⟩, rfl, rfl⟩
      exact ⟨rfl, by rw [size_cons]; omega⟩
    · rintro ⟨hs, hsize⟩
      cases a with
      | nil => cases hsize
      | cons d a =>
        cases hs
        rw [size_cons] at hsize
        exact ⟨a, b, ⟨rfl, by omega⟩, rfl, rfl⟩
  | case4 c s n hn =>
    simp only [reduceCtorEq, false_iff, not_and]
    intro hs hsize
    cases a with
    | nil => cases hsize
    | cons d a =>
      cases hs
      rw [size_cons] at hsize
      omega

-- Nothing is cut off inside of a character of two bytes.
example : drop? ['é', 'x'] 1 = none ∧ drop? ['é', 'x'] 2 = some ['x'] := by decide

@[simp] theorem take?_append (p r : List Char) : take? (p ++ r) (size p) = some p := by
  rw [take?, splitAt?_eq_some_iff.2 ⟨rfl, rfl⟩]
  rfl

@[simp] theorem drop?_append (p r : List Char) : drop? (p ++ r) (size p) = some r := by
  rw [drop?, splitAt?_eq_some_iff.2 ⟨rfl, rfl⟩]
  rfl

theorem drop?_eq_some {t : List Char} (hs : s = p ++ t) (hn : n = size p) : drop? s n = some t := by
  rw [hs, hn, drop?_append]

theorem slice?_eq_some {t : List Char} {i j : Nat} (hs : s = p ++ (t ++ r)) (hi : i = size p)
    (hj : j = size (p ++ t)) : slice? s i j = some t := by
  subst hs hi hj
  simp [slice?]

theorem int32?_eq_some {d : Int} (h : d.natAbs < 2 ^ 31) : int32? d = some d :=
  if_pos (by omega)

/-! ### Bytes at a boundary -/

theorem getElem?_letters (p r : List Char) : (letters (p ++ r))[size p]? = (letters r)[0]? := by
  rw [letters_append, List.getElem?_append_right (by rw [length_letters]), length_letters,
    Nat.sub_self]

theorem getElem?_letters_cons (p : List Char) (c : Char) (r : List Char) :
    (letters (p ++ c :: r))[size p]? = some (lead c) := by
  have := c.utf8Size_pos
  rw [getElem?_letters, letters_cons, List.getElem?_append_left (by simpa), List.getElem?_replicate,
    if_pos this]

theorem head?_letters_cons (c : Char) (r : List Char) :
    (letters (c :: r)).head? = some (lead c) := by
  rw [List.head?_eq_getElem?]
  exact getElem?_letters_cons [] c r

theorem span?_letters (p r : List Char) (h : size p + n ≤ size (p ++ r)) :
    span? (letters (p ++ r)) (size p) (size p + n) = some ((letters r).take n) := by
  rw [span?, if_pos ⟨by omega, by rwa [length_letters]⟩, letters_append]
  simp [← length_letters, List.drop_take]

theorem span?_letters_size (p r : List Char) :
    span? (letters (p ++ r)) (size p) (size (p ++ r)) = some (letters r) := by
  rw [size_append, span?_letters p r (by simp), ← length_letters, List.take_length]

/-- A loop that goes on from every byte of a character gets behind the character. -/
theorem size_append_of_skips {β : Type} {f : Nat → β}
    (h : ∀ i, (letters (p ++ c :: r))[i]? = some (lead c) → f i = f (i + 1)) :
    f (size p) = f (size (p ++ [c])) := by
  have hsteps : ∀ k ≤ c.utf8Size, f (size p) = f (size p + k) := by
    intro k hk
    induction k with
    | zero => rfl
    | succ k ih =>
      rw [ih (by omega), h (size p + k), Nat.add_assoc]
      rw [letters_append, List.getElem?_append_right (by rw [length_letters]; omega),
        length_letters, Nat.add_sub_cancel_left, letters_cons,
        List.getElem?_append_left (by simpa), List.getElem?_replicate, if_pos (by omega)]
  rw [hsteps _ le_rfl, size_append, size_cons, size_nil, Nat.add_zero]

/-- A kind of ASCII characters. -/
def AsciiKind (k : Char → Bool) : Prop := ∀ c, k c = true → c.toNat < 128

theorem asciiKind_isAsciiBlank : AsciiKind isAsciiBlank := by
  intro c hc
  simp only [isAsciiBlank, Bool.or_eq_true, beq_iff_eq] at hc
  rcases hc with (((h | h) | h) | h) | h <;> subst h <;> decide

theorem any_lead {k : Char → Bool} (hk : AsciiKind k) (c : Char) : (lead c).any k = k c := by
  unfold lead
  split
  · rfl
  · next h =>
    cases hc : k c
    · rfl
    · exact absurd (hk c hc) h

theorem runEnd_append {k : Char → Bool} (hk : AsciiKind k) (p r : List Char) :
    runEnd k (p ++ r) (size p) = some (size (p ++ r.takeWhile k)) := by
  induction r generalizing p with
  | nil =>
    rw [runEnd, if_neg (by simp)]
    simp
  | cons c r ih =>
    rw [runEnd, if_pos (size_lt_append_cons ..), getElem?_letters_cons]
    simp only [Option.bind_eq_bind, Option.bind_some, any_lead hk]
    by_cases hc : k c = true
    · have := ih (p ++ [c])
      rw [List.append_assoc] at this
      have hsize : size (p ++ [c]) = size p + 1 := by simp [utf8Size_of_ascii (hk c hc)]
      rw [if_pos hc, ← hsize]
      simpa [hc] using this
    · simp [hc]

theorem count_letters (s : List Char) : (letters s).count (some '\n') = s.count '\n' := by
  induction s with
  | nil => rfl
  | cons c s ih =>
    by_cases hc : c = '\n'
    · subst hc
      rw [letters_cons_of_ascii (by decide), List.count_cons_self, List.count_cons_self, ih]
    · have hlead : lead c ≠ some '\n' := fun h => hc (lead_eq_some_iff.1 h).2
      rw [letters_cons, List.count_append, List.count_replicate, ih]
      simp [hc, hlead]

theorem lineOf_append (p r : List Char) : lineOf (p ++ r) (size p) = some (1 + p.count '\n') := by
  have hmin : min (size p) (size (p ++ r)) = (letters p).length := by
    rw [length_letters, size_append]
    omega
  rw [lineOf, hmin, span?, if_pos (by simp [letters_append])]
  simp [letters_append, count_letters]

/-! ### Marks at a boundary -/

/-- Marks and words are ASCII texts. -/
def Ascii (word : List Char) : Prop := ∀ c ∈ word, c.toNat < 128

theorem letters_of_ascii {word : List Char} (h : Ascii word) : letters word = word.map some := by
  induction word with
  | nil => rfl
  | cons c word ih =>
    obtain ⟨hc, hword⟩ := List.forall_mem_cons.1 h
    rw [letters_cons_of_ascii hc, ih hword, List.map_cons]

theorem size_of_ascii {word : List Char} (h : Ascii word) : size word = word.length := by
  rw [← length_letters, letters_of_ascii h, List.length_map]

/-- Only ASCII letters have other cases. -/
theorem ascii_of_toLower {w : Char} (h : w.toLower = c.toLower) (hw : w.toNat < 128) :
    c.toNat < 128 := by
  by_contra hc
  have hall : ∀ n < 128, (Char.ofNat n).toLower.toNat < 128 := by decide
  have := hall w.toNat hw
  rw [Char.ofNat_toNat, h, toLower_eq_self (by omega)] at this
  exact hc this

/-- What tells letters apart along an ASCII text tells bytes apart there. -/
theorem map_take_letters_iff {f : Char → Char}
    (hf : ∀ w c : Char, f w = f c → w.toNat < 128 → c.toNat < 128) {word : List Char}
    (h : Ascii word) (s : List Char) :
    ((letters s).take word.length).map (·.map f) = word.map (some <| f ·) ↔
      (s.take word.length).map f = word.map f := by
  induction word generalizing s with
  | nil => simp
  | cons w word ih =>
    obtain ⟨hw, hword⟩ := List.forall_mem_cons.1 h
    cases s with
    | nil => simp
    | cons c s =>
      by_cases hc : c.toNat < 128
      · rw [letters_cons_of_ascii hc]
        simpa using fun _ => ih hword s
      · have hne : f c ≠ f w := fun hcw => hc (hf w c hcw.symm hw)
        obtain ⟨k, hk⟩ := Nat.exists_eq_succ_of_ne_zero c.utf8Size_pos.ne'
        simp [letters_cons, hk, List.replicate_succ, lead, hc, hne]

/-- Whether bytes are a word, up to the case of its letters. -/
def isWord (word : List Char) (bs : List (Option Char)) : Bool :=
  bs.map (·.map Char.toLower) == word.map (some ·.toLower)

theorem isWord_take {word : List Char} (h : Ascii word) (s : List Char) :
    isWord word ((letters s).take word.length) = (afterWord? word s).isSome := by
  rw [Bool.eq_iff_iff, isWord, beq_iff_eq, map_take_letters_iff (fun _ _ => ascii_of_toLower) h]
  constructor
  · intro hs
    have := afterWord?_append (w := s.take word.length) (beq_iff_eq.2 hs) (s.drop word.length)
    rw [List.take_append_drop] at this
    rw [this]
    rfl
  · intro hs
    obtain ⟨r, hr⟩ := Option.isSome_iff_exists.1 hs
    obtain ⟨w, hw, rfl⟩ := eq_of_afterWord? hr
    rw [← length_of_sameLetters hw, List.take_left]
    exact beq_iff_eq.1 hw

/-- Whether bytes begin with a mark. -/
def beginsWith (mark : List Char) (bs : List (Option Char)) : Bool :=
  bs.take mark.length == mark.map some

theorem beginsWith_letters {mark : List Char} (h : Ascii mark) (s : List Char) :
    beginsWith mark (letters s) = (after? mark s).isSome := by
  have hsome : (after? mark s).isSome = true ↔ s.take mark.length = mark := by
    rw [Option.isSome_iff_exists, @eq_comm _ _ mark, ← List.prefix_iff_eq_take]
    simp only [after?_eq_some_iff, List.IsPrefix, @eq_comm _ s]
  have := map_take_letters_iff (f := id) (fun w c (hwc : w = c) hw => hwc ▸ hw) h s
  rw [Bool.eq_iff_iff, hsome, beginsWith, beq_iff_eq]
  simpa using this

/-- A word in other cases has as many bytes. -/
theorem size_of_sameLetters {w word : List Char} (h : Ascii word)
    (hw : sameLetters w word = true) : size w = size word := by
  have hascii : Ascii w := by
    intro c hc
    have hm : c.toLower ∈ lower word := by
      rw [← beq_iff_eq.1 hw]
      exact List.mem_map_of_mem hc
    obtain ⟨x, hx, hxc⟩ := List.mem_map.1 hm
    exact ascii_of_toLower hxc (h x hx)
  rw [size_of_ascii hascii, size_of_ascii h, length_of_sameLetters hw]

/-- A word is at the beginning of a text if it is what as many bytes are. -/
theorem afterWord?_eq_splitAt? {word : List Char} (h : Ascii word) (s : List Char) :
    afterWord? word s = (splitAt? s (size word)).bind fun (head, rest) =>
      if sameLetters head word then some rest else none := by
  ext rest
  simp only [Option.bind_eq_some_iff, Prod.exists, splitAt?_eq_some_iff,
    Option.ite_none_right_eq_some, Option.some.injEq]
  constructor
  · intro hs
    obtain ⟨w, hw, rfl⟩ := eq_of_afterWord? hs
    exact ⟨w, rest, ⟨rfl, size_of_sameLetters h hw⟩, hw, rfl⟩
  · rintro ⟨w, r, ⟨rfl, -⟩, hw, rfl⟩
    exact afterWord?_append hw r

end Bytes

end Progression
