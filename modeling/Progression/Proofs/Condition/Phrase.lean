import Progression.Proofs.Condition.Atom
import Progression.Proofs.Condition.Connective

/-!
Phrases: tokens without blanks in them, with blanks between them. Every spelling of a predicate is
a phrase, and a phrase is free of keywords when none of its tokens is one.
-/

namespace Progression.Condition

open Progression.Text

/-- A text without blanks, and the depths of parentheses before and after it. -/
structure Token (d : Nat) (s : List Char) (e : Nat) : Prop where
  ne_nil : s ≠ []
  solid : ∀ c ∈ s, isBlank c = false
  depth : depth? d s = some e
  amp : '&' ∉ s

/-- A text that does not begin with a keyword of its own. -/
def Inert (t : List Char) : Prop := ∀ word, Keyword word → Clear word t

/-- Tokens with blanks between them, none a keyword but the first. -/
inductive Phrase : Nat → List Char → Nat → Prop
  | token {d e : Nat} {s : List Char} : Token d s e → Phrase d s e
  | more {d e f : Nat} {s p t : List Char} : Token d s e → Pad p → Inert t → Phrase e t f →
    Phrase d (s ++ (p ++ t)) f

theorem Inert.of_none {t : List Char} (ho : afterWord? "or".toList t = none)
    (ha : afterWord? "and".toList t = none) : Inert t := by
  rintro word (rfl | rfl)
  · exact .of_none ho
  · exact .of_none ha

/-- A text is inert that begins with another letter than a keyword. -/
theorem Inert.of_head {c : Char} (h : c.toLower ≠ 'o' ∧ c.toLower ≠ 'a') (t : List Char) :
    Inert (c :: t) :=
  .of_none (if_neg fun he => h.1 he.symm) (if_neg fun he => h.2 he.symm)

namespace Phrase

variable {d e : Nat} {t : List Char}

theorem edged (h : Phrase d t e) : Edged t := by
  induction h with
  | token h => exact edged_of_solid h.ne_nil h.solid
  | more h _ _ _ ih => exact (edged_of_solid h.ne_nil h.solid).append ih _

theorem depth (h : Phrase d t e) : depth? d t = some e := by
  induction h with
  | token h => exact h.depth
  | more h hp _ _ ih =>
    rw [depth?_append, h.depth, Option.bind_some, depth?_append, depth?_pad hp, Option.bind_some,
      ih]

theorem amp (h : Phrase d t e) : '&' ∉ t := by
  induction h with
  | token h => exact h.amp
  | more h hp _ _ ih =>
    simp only [List.mem_append, not_or]
    exact ⟨h.amp, hp.amp, ih⟩

theorem free (h : Phrase d t e) {word : List Char} (hk : Keyword word) : Free word (d : Int) t := by
  induction h with
  | token h => exact .of_solid h.solid _
  | more h hp hi ht ih =>
    refine .solid h.solid ?_
    rw [foldl_depthAfter h.depth]
    exact .pad hk hp ht.edged (hi word hk) ih

end Phrase

/-! ### The tokens of predicates -/

/-- A text is a token when all its characters are of a kind to which no blank, no parenthesis and
no mark of an escape belongs. -/
theorem token_of_forall {f : Char → Bool} {s : List Char} (hne : s ≠ [])
    (hs : ∀ c ∈ s, f c = true) (hb : ∀ c, f c = true → isBlank c = false)
    (hf : ∀ c ∈ ['(', ')', '&'], f c = false) (d : Nat) : Token d s d := by
  have hnot : ∀ c ∈ ['(', ')', '&'], c ∉ s := by
    intro c hc hm
    have := hs c hm
    rw [hf c hc] at this
    cases this
  refine ⟨hne, fun c hc => hb c (hs c hc), depth?_of_plain ?_ d, hnot _ (by simp)⟩
  intro c hc
  constructor
  · rintro rfl; exact hnot '(' (by simp) hc
  · rintro rfl; exact hnot ')' (by simp) hc

/-- A word of letters, in any case. -/
theorem token_letters {s w : List Char} (h : sameLetters s w = true) (hne : w ≠ [])
    (hw : ∀ c ∈ lower w, c.isAlpha = true) (d : Nat) : Token d s d := by
  refine token_of_forall ?_ (isAsciiWordChar_of_letters h hw)
    (fun _ => isBlank_of_isAsciiWordChar) (by decide) d
  rintro rfl
  exact hne (List.length_eq_zero_iff.1 (length_of_sameLetters h).symm)

theorem token_numeral {n : UInt32} {s : List Char} (h : Numeral n s) (d : Nat) : Token d s d :=
  token_of_forall h.1 h.2.1 (fun _ => isBlank_of_isAsciiDigit) (by decide) d

theorem token_named {job : Job} {s : List Char} (h : job.Named s) (d : Nat) : Token d s d := by
  have hs : ∀ c ∈ s, (isAsciiWordChar c || c == '.') = true := by
    intro c hc
    simpa using h.mem hc
  refine token_of_forall h.edged.1 hs ?_ (by decide) d
  intro c hc
  simp only [Bool.or_eq_true, beq_iff_eq] at hc
  rcases hc with hc | rfl
  · exact isBlank_of_isAsciiWordChar hc
  · rfl

theorem token_symbol (op : Comparison) (d : Nat) : Token d op.symbol.toList d := by
  cases op <;> exact ⟨by decide, by decide, rfl, by decide⟩

theorem inert_numeral {n : UInt32} {s : List Char} (h : Numeral n s) (r : List Char) :
    Inert (s ++ r) := by
  obtain ⟨c, s, rfl⟩ := List.exists_cons_of_ne_nil h.1
  have hc := h.2.1 c (by simp)
  refine .of_head ?_ _
  rw [toLower_eq_self (by have := toNat_of_isAsciiDigit hc; omega)]
  constructor
  · rintro rfl; cases hc
  · rintro rfl; cases hc

theorem inert_named {job : Job} {s : List Char} (h : job.Named s) (r : List Char) :
    Inert (s ++ r) := by
  obtain ⟨w, hw, rfl | rfl⟩ := h
  · refine .of_none (afterWord?_eq_none hw ?_) (afterWord?_eq_none hw ?_)
    · cases job <;> rfl
    · cases job <;> rfl
  · exact .of_none rfl rfl

theorem inert_symbol (op : Comparison) (r : List Char) : Inert (op.symbol.toList ++ r) := by
  cases op <;> exact .of_none rfl rfl

/-- A comparison that follows a token. -/
theorem Phrase.compared {d e : Nat} {s t : List Char} {op : Comparison} {k : UInt32}
    (hs : Token d s e) (h : Predicate.Compared op k t) : Phrase d (s ++ t) e := by
  obtain ⟨p, q, n, hp, hq, hn, rfl⟩ := h
  have hi := inert_numeral hn []
  rw [List.append_nil] at hi
  have hk : Phrase e n e := .token (token_numeral hn e)
  exact .more hs hp (inert_symbol op _) (.more (token_symbol op e) hq hi hk)

/-- A name with its bracket. -/
theorem token_unary {name : String} {make : UInt32 → Predicate}
    (h : (name, make) ∈ Predicate.unaries) : Token 0 (name.toList ++ ['(']) 1 := by
  simp only [Predicate.unaries, List.mem_cons, Prod.mk.injEq, List.not_mem_nil, or_false] at h
  rcases h with ⟨rfl, -⟩ | ⟨rfl, -⟩ | ⟨rfl, -⟩ | ⟨rfl, -⟩
  all_goals exact ⟨by decide, by decide, rfl, by decide⟩

theorem token_binary {name : String} {make : UInt32 → UInt32 → Predicate}
    (h : (name, make) ∈ Predicate.binaries) : Token 0 (name.toList ++ ['(']) 1 := by
  simp only [Predicate.binaries, List.mem_cons, Prod.mk.injEq, List.not_mem_nil, or_false] at h
  rcases h with ⟨rfl, -⟩ | ⟨rfl, -⟩
  all_goals exact ⟨by decide, by decide, rfl, by decide⟩

/-- Every spelling of a predicate is a phrase. -/
theorem phrase_of_spelled {x : Predicate} {t : List Char} (h : Predicate.Spelled x t) :
    Phrase 0 t 0 := by
  have hclose : Token 1 [')'] 0 := ⟨by decide, by decide, rfl, by decide⟩
  cases h with
  | unary hm hp hd hq =>
    rw [List.append_cons]
    exact .more (token_unary hm) hp (inert_numeral hd _)
      (.more (token_numeral hd 1) hq (.of_head (by decide) _) (.token hclose))
  | @binary _ _ _ _ p d q p' d' q' hm hp hd hq hp' hd' hq' =>
    have hcomma : Token 1 [','] 1 := ⟨by decide, by decide, rfl, by decide⟩
    have htail : Phrase 1 ([','] ++ (p' ++ (d' ++ (q' ++ [')'])))) 0 :=
      .more hcomma hp' (inert_numeral hd' _)
        (.more (token_numeral hd' 1) hq' (.of_head (by decide) _) (.token hclose))
    rw [List.append_cons]
    exact .more (token_binary hm) hp (inert_numeral hd _)
      (.more (token_numeral hd 1) hq (.of_head (by decide) _) htail)
  | questStep hp hd hq ht =>
    have hframe : Token 0 "GetQuestStep(".toList 1 := ⟨by decide, by decide, rfl, by decide⟩
    exact .more hframe hp (inert_numeral hd _)
      (.more (token_numeral hd 1) hq (.of_head (by decide) _) (.compared hclose ht))
  | level hp hj hq ht =>
    have hframe : Token 0 "Levels[".toList 0 := ⟨by decide, by decide, rfl, by decide⟩
    have hbracket : Token 0 [']'] 0 := ⟨by decide, by decide, rfl, by decide⟩
    exact .more hframe hp (inert_named hj _)
      (.more (token_named hj 0) hq (.of_head (by decide) _) (.compared hbracket ht))
  | activeLevel ht =>
    have hframe : Token 0 "CurrentClassLevel".toList 0 := ⟨by decide, by decide, rfl, by decide⟩
    exact .compared hframe ht
  | activeJob hp hq hj =>
    have hframe : Token 0 "ClassName".toList 0 := ⟨by decide, by decide, rfl, by decide⟩
    have hi := inert_named hj []
    rw [List.append_nil] at hi
    exact .more hframe hp (inert_symbol _ _)
      (.more (token_symbol _ 0) hq hi (.token (token_named hj 0)))

end Progression.Condition
