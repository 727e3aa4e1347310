import Mathlib.Data.List.TakeWhile
import Progression.Json.Token
import Progression.Json.Writer

/-!
The compact text of a value, token by token. A word ends only where something else begins that is
no part of a word, so a text gives its tokens whatever comes behind it, unless that goes on with its
last word. `Lexes` says so of a text, and is put together along the value.
-/

namespace Progression.Json

open Lexer

/-! ### Numbers -/

section Numbers

variable {s : List Char}

theorem isWordPart_of_isDigit {c : Char} (h : c.isDigit = true) : isWordPart c = true := by
  simp [isWordPart, Char.isAlphanum, h]

theorem isWordPart_of_someDigits (h : someDigits s = true) : ∀ c ∈ s, isWordPart c = true := by
  simp only [someDigits, Bool.and_eq_true, List.all_eq_true] at h
  exact fun c hc => isWordPart_of_isDigit (h.2 c hc)

theorem isWordPart_of_isExponent (h : isExponent s = true) : ∀ c ∈ s, isWordPart c = true := by
  unfold isExponent at h
  split at h
  · simp
  · next c s =>
    obtain ⟨hc, hs⟩ := Bool.and_eq_true_iff.1 h
    have hletter : isWordPart c = true := by
      rcases Bool.or_eq_true_iff.1 hc with hc | hc <;> rw [eq_of_beq hc] <;> decide
    refine List.forall_mem_cons.2 ⟨hletter, ?_⟩
    split at hs
    · exact List.forall_mem_cons.2 ⟨by decide, isWordPart_of_someDigits hs⟩
    · exact List.forall_mem_cons.2 ⟨by decide, isWordPart_of_someDigits hs⟩
    · exact isWordPart_of_someDigits hs

/-- Digits and what comes behind them. -/
theorem isWordPart_of_dropWhile (h : ∀ c ∈ s.dropWhile Char.isDigit, isWordPart c = true) :
    ∀ c ∈ s, isWordPart c = true := by
  rw [← List.takeWhile_append_dropWhile (p := Char.isDigit) (l := s)]
  refine List.forall_mem_append.2 ⟨fun c hc => ?_, h⟩
  exact isWordPart_of_isDigit (List.mem_takeWhile_imp hc)

theorem isWordPart_of_isFraction (h : isFraction s = true) : ∀ c ∈ s, isWordPart c = true := by
  unfold isFraction at h
  split at h
  · obtain ⟨-, hrest⟩ := Bool.and_eq_true_iff.1 h
    refine List.forall_mem_cons.2 ⟨by decide, ?_⟩
    exact isWordPart_of_dropWhile (isWordPart_of_isExponent hrest)
  · exact isWordPart_of_isExponent h

theorem isWordPart_of_isMagnitude (h : isMagnitude s = true) : ∀ c ∈ s, isWordPart c = true :=
  isWordPart_of_dropWhile (isWordPart_of_isFraction (Bool.and_eq_true_iff.1 h).2)

/-- A number is one word. -/
theorem isWordPart_of_isNumber (h : isNumber s = true) : ∀ c ∈ s, isWordPart c = true := by
  unfold isNumber at h
  split at h
  · exact List.forall_mem_cons.2 ⟨by decide, isWordPart_of_isMagnitude h⟩
  · exact isWordPart_of_isMagnitude h

end Numbers

/-! ### Texts and their tokens -/

/-- A text that does not go on with a word. -/
def Parted (s : List Char) : Prop := ∀ c ∈ s.head?, isWordPart c = false

/-- A text gives tokens, and leaves what comes behind it as it is. -/
def Lexes (s : List Char) (ts : List Token) : Prop :=
  ∀ rest, Parted rest → between.run? (s ++ rest) = (between.run? rest).map (ts ++ ·)

theorem Parted.append {s rest : List Char} (hs : Parted s) (hrest : Parted rest) :
    Parted (s ++ rest) := by
  cases s with
  | nil => exact hrest
  | cons c s => exact hs

namespace Lexes

variable {s s' : List Char} {ts ts' : List Token}

theorem nil : Lexes [] [] := fun rest _ => by simp

theorem append (h : Lexes s ts) (h' : Lexes s' ts') (hparted : Parted s') :
    Lexes (s ++ s') (ts ++ ts') := by
  intro rest hrest
  rw [List.append_assoc, h _ (hparted.append hrest), h' rest hrest, Option.map_map]
  simp [Function.comp_def]

/-- A mark that is a token by itself. -/
theorem cons {c : Char} {t : Token} (hc : punctuation? c = some ([t], between)) (h : Lexes s ts) :
    Lexes (c :: s) (t :: ts) := by
  intro rest hrest
  rw [List.cons_append, run?]
  simp only [step?, hc]
  rw [h rest hrest, Option.map_map]
  rfl

end Lexes

/-! ### Words -/

section Words

variable {w : List Char} {t : Token}

theorem punctuation?_of_isWordPart {c : Char} (h : isWordPart c = true) :
    punctuation? c = some ([], .inWord [c]) := by
  have hblank : isJsonBlank c = false := by
    by_contra hblank
    simp only [isJsonBlank, Bool.not_eq_false, Bool.or_eq_true, beq_iff_eq, or_assoc] at hblank
    rcases hblank with rfl | rfl | rfl | rfl <;> exact absurd h (by decide)
  unfold punctuation?
  split
  all_goals try exact absurd h (by decide)
  simp [hblank, h]

theorem run?_inWord (hw : ∀ c ∈ w, isWordPart c = true) (read rest : List Char) :
    (inWord read).run? (w ++ rest) = (inWord (w.reverse ++ read)).run? rest := by
  induction w generalizing read with
  | nil => rfl
  | cons c w ih =>
    obtain ⟨hc, hw⟩ := List.forall_mem_cons.1 hw
    rw [List.cons_append, run?]
    simp only [step?, hc, if_true, List.nil_append, Option.map_id']
    rw [ih hw]
    simp

/-- A word ends where its text does, or before what is no part of a word. -/
theorem run?_inWord_of_parted {read rest : List Char} (ht : Token.ofWord? read.reverse = some t)
    (hrest : Parted rest) : (inWord read).run? rest = (between.run? rest).map (t :: ·) := by
  cases rest with
  | nil => simp [run?, ht]
  | cons c rest =>
    have hc : isWordPart c = false := hrest c rfl
    rw [run?, run?]
    simp only [step?, hc, ht, Bool.false_eq_true, if_false]
    cases punctuation? c with
    | none => rfl
    | some e => simp [Function.comp_def]

theorem lexes_word (hne : w ≠ []) (hw : w.all isWordPart = true)
    (ht : Token.ofWord? w = some t) : Lexes w [t] := by
  intro rest hrest
  cases w with
  | nil => exact absurd rfl hne
  | cons c w =>
    obtain ⟨hc, hw⟩ := List.forall_mem_cons.1 (List.all_eq_true.1 hw)
    rw [List.cons_append, run?]
    simp only [step?, punctuation?_of_isWordPart hc, List.nil_append, Option.map_id']
    rw [run?_inWord hw, run?_inWord_of_parted (by simpa using ht) hrest]
    rfl

theorem lexes_number {s : String} (h : isNumber s.toList = true) : Lexes s.toList [.number s] := by
  have hne : s.toList ≠ [] := by
    intro hnil
    rw [hnil] at h
    exact absurd h (by decide)
  refine lexes_word hne (List.all_eq_true.2 (isWordPart_of_isNumber h)) ?_
  -- The three words of the language are no numbers.
  have hword : ∀ w, isNumber w = false → s.toList ≠ w := by
    rintro w hw rfl
    rw [h] at hw
    cases hw
  unfold Token.ofWord?
  rw [if_neg (hword _ (by decide)), if_neg (hword _ (by decide)), if_neg (hword _ (by decide)),
    if_pos h, String.ofList_toList]

end Words

/-! ### Strings -/

section Strings

variable (read rest : List Char)

theorem run?_inString_plain {c : Char} (hquote : c ≠ '"') (hslash : c ≠ '\\')
    (hcontrol : ¬ c.toNat < 0x20) :
    (inString read).run? (c :: rest) = (inString (c :: read)).run? rest := by
  rw [run?]
  simp [step?, hquote, hslash, hcontrol]

theorem run?_inString_escaped {c e : Char} (hu : e ≠ 'u') (he : escape? e = some c) :
    (inString read).run? ('\\' :: e :: rest) = (inString (c :: read)).run? rest := by
  simp [run?, step?, hu, he]

theorem digitValue?_hexDigit : ∀ n < 16, Number.digitValue? 16 (hexDigit n) = some n := by decide

/-- A control character as a unit of four digits. -/
theorem run?_inString_unit {c : Char} (h : c.toNat < 0x20) :
    (inString read).run?
        ('\\' :: 'u' :: '0' :: '0' :: hexDigit (c.toNat / 16) :: hexDigit (c.toNat % 16) :: rest)
      = (inString (c :: read)).run? rest := by
  have hhigh := digitValue?_hexDigit (c.toNat / 16) (by omega)
  have hlow := digitValue?_hexDigit (c.toNat % 16) (by omega)
  have hzero : Number.digitValue? 16 '0' = some 0 := by decide
  have hunit : afterUnit? read (c.toNat / 16 * 16 + c.toNat % 16) none =
      some (inString (c :: read)) := by
    rw [Nat.div_add_mod']
    have hc : Text.ofCodePoint? c.toNat = some c := dif_pos c.valid
    rw [afterUnit?, if_neg (by omega), hc, Option.map_some]
  simp [run?, step?, hzero, hhigh, hlow, hunit]

theorem run?_inString_escape (c : Char) :
    (inString read).run? (escape c ++ rest) = (inString (c :: read)).run? rest := by
  unfold escape
  split_ifs with hquote hslash hb hf hn hr ht hcontrol
  · subst hquote; exact run?_inString_escaped read rest (by decide) rfl
  · subst hslash; exact run?_inString_escaped read rest (by decide) rfl
  · subst hb; exact run?_inString_escaped read rest (by decide) rfl
  · subst hf; exact run?_inString_escaped read rest (by decide) rfl
  · subst hn; exact run?_inString_escaped read rest (by decide) rfl
  · subst hr; exact run?_inString_escaped read rest (by decide) rfl
  · subst ht; exact run?_inString_escaped read rest (by decide) rfl
  · exact run?_inString_unit read rest hcontrol
  · exact run?_inString_plain read rest hquote hslash hcontrol

theorem run?_inString_escapes (s : List Char) :
    (inString read).run? (s.flatMap escape ++ rest) = (inString (s.reverse ++ read)).run? rest := by
  induction s generalizing read with
  | nil => rfl
  | cons c s ih =>
    rw [List.flatMap_cons, List.append_assoc, run?_inString_escape, ih]
    simp

/-- A string in quotes, with any text behind it. -/
theorem Lexes.string {s : List Char} {ts : List Token} (h : Lexes s ts) (text : String) :
    Lexes (quote text ++ s) (.string text :: ts) := by
  intro rest hrest
  have hopen : between.run? (quote text ++ (s ++ rest)) =
      (inString []).run? (text.toList.flatMap escape ++ '"' :: (s ++ rest)) := by
    simp [quote, run?, step?, punctuation?]
  rw [List.append_assoc, hopen, run?_inString_escapes, run?]
  simp [step?, h rest hrest, Function.comp_def]

end Strings

/-! ### Values -/

mutual

/-- The tokens of a value. -/
def tokens : Json → List Token
  | null => [.null]
  | bool true => [.true]
  | bool false => [.false]
  | number s => [.number s]
  | string s => [.string s]
  | array items => .openArray :: (itemTokens items ++ [.closeArray])
  | object fields => .openObject :: (fieldTokens fields ++ [.closeObject])

/-- The tokens of items, with a comma between two. -/
def itemTokens : List Json → List Token
  | [] => []
  | [v] => tokens v
  | v :: vs => tokens v ++ .comma :: itemTokens vs

/-- The tokens of fields, with a comma between two. -/
def fieldTokens : List (String × Json) → List Token
  | [] => []
  | [(k, v)] => .string k :: .colon :: tokens v
  | (k, v) :: vs => .string k :: .colon :: (tokens v ++ .comma :: fieldTokens vs)

end

mutual

/-- Whether every number of a value is spelled as a number. -/
def Spelled : Json → Prop
  | number s => isNumber s.toList = true
  | array items => SpelledItems items
  | object fields => SpelledFields fields
  | _ => True

/-- The same for several values. -/
def SpelledItems : List Json → Prop
  | [] => True
  | v :: vs => Spelled v ∧ SpelledItems vs

/-- The same for the values of several fields. -/
def SpelledFields : List (String × Json) → Prop
  | [] => True
  | (_, v) :: vs => Spelled v ∧ SpelledFields vs

end

theorem parted_cons {c : Char} {s : List Char} (h : isWordPart c = false) : Parted (c :: s) := by
  simpa [Parted] using h

/-- Two texts with a mark between them. -/
theorem Lexes.join {s s' : List Char} {ts ts' : List Token} {c : Char} {t : Token}
    (h : Lexes s ts) (hc : punctuation? c = some ([t], between)) (hpart : isWordPart c = false)
    (h' : Lexes s' ts') : Lexes (s ++ c :: s') (ts ++ t :: ts') :=
  h.append (.cons hc h') (parted_cons hpart)

mutual

/-- The compact text of a value gives its tokens. -/
theorem lexes_compact : ∀ v : Json, Spelled v → Lexes (compact v) (tokens v)
  | null, _ => lexes_word (by decide) rfl rfl
  | bool true, _ => lexes_word (by decide) rfl rfl
  | bool false, _ => lexes_word (by decide) rfl rfl
  | number s, h => lexes_number h
  | string s, _ => by simpa [compact, tokens] using Lexes.nil.string s
  | array items, h => ((lexes_compactItems items h).join rfl (by decide) .nil).cons rfl
  | object fields, h => ((lexes_compactFields fields h).join rfl (by decide) .nil).cons rfl

theorem lexes_compactItems : ∀ vs : List Json, SpelledItems vs →
    Lexes (compactItems vs) (itemTokens vs)
  | [], _ => .nil
  | [v], h => lexes_compact v h.1
  | v :: w :: vs, h =>
    (lexes_compact v h.1).join rfl (by decide) (lexes_compactItems (w :: vs) h.2)

theorem lexes_compactFields : ∀ fs : List (String × Json), SpelledFields fs →
    Lexes (compactFields fs) (fieldTokens fs)
  | [], _ => .nil
  | [(k, v)], h => ((lexes_compact v h.1).cons rfl).string k
  | (k, v) :: f :: fs, h => by
    have hrest := (lexes_compact v h.1).join (c := ',') rfl (by decide)
      (lexes_compactFields (f :: fs) h.2)
    simpa [compactFields, fieldTokens] using (hrest.cons (c := ':') rfl).string k

end

end Progression.Json
