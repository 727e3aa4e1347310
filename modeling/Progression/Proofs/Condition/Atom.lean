import Progression.Condition.Atom
import Progression.Proofs.Text

/-!
The spellings of predicates, and that each is read as its predicate. A number may have leading
zeros, a class may have its mark and any letter case, and blanks may stand around the parts.
-/

namespace Progression

open Progression.Text

/-- A text of digits that stands for a number. -/
def Numeral (n : UInt32) (d : List Char) : Prop :=
  d ≠ [] ∧ (∀ c ∈ d, isAsciiDigit c = true) ∧
    d.foldl (fun v c => 10 * v + (c.toNat - 48)) 0 = n.toNat

/-- A text that names a class: its name in any letter case, after the mark or without it. -/
def Job.Named (job : Job) (t : List Char) : Prop :=
  ∃ w, sameLetters w job.name.toList = true ∧ (t = w ∨ t = Job.mark ++ w)

namespace Predicate

/-- The predicates of one number, with their names. -/
def unaries : List (String × (UInt32 → Predicate)) :=
  [("IsQuestCompleted", isQuestCompleted), ("HasQuest", hasQuest), ("HasItem", hasItem),
    ("IsQuestAcceptQualified", isQuestAcceptQualified)]

/-- The predicates of two numbers, with their names. -/
def binaries : List (String × (UInt32 → UInt32 → Predicate)) :=
  [("HqHasAtLeast", hqHasAtLeast), ("NqHasAtLeast", nqHasAtLeast)]

/-- A comparison with a number. -/
def Compared (op : Comparison) (k : UInt32) (t : List Char) : Prop :=
  ∃ p q d, Pad p ∧ Pad q ∧ Numeral k d ∧ t = p ++ (op.symbol.toList ++ (q ++ d))

/-- The texts that spell a predicate. -/
inductive Spelled : Predicate → List Char → Prop
  | unary {name : String} {make : UInt32 → Predicate} {n : UInt32} {p d q : List Char} :
    (name, make) ∈ unaries → Pad p → Numeral n d → Pad q →
    Spelled (make n) (name.toList ++ '(' :: (p ++ (d ++ (q ++ [')']))))
  | binary {name : String} {make : UInt32 → UInt32 → Predicate} {n k : UInt32}
      {p d q p' d' q' : List Char} :
    (name, make) ∈ binaries → Pad p → Numeral n d → Pad q → Pad p' → Numeral k d' → Pad q' →
    Spelled (make n k)
      (name.toList ++ '(' :: (p ++ (d ++ (q ++ ',' :: (p' ++ (d' ++ (q' ++ [')'])))))))
  | questStep {n k : UInt32} {op : Comparison} {p d q t : List Char} :
    Pad p → Numeral n d → Pad q → Compared op k t →
    Spelled (.questStep n op k) ("GetQuestStep(".toList ++ (p ++ (d ++ (q ++ ')' :: t))))
  | level {job : Job} {k : UInt32} {op : Comparison} {p j q t : List Char} :
    Pad p → job.Named j → Pad q → Compared op k t →
    Spelled (.level job op k) ("Levels[".toList ++ (p ++ (j ++ (q ++ ']' :: t))))
  | activeLevel {k : UInt32} {op : Comparison} {t : List Char} : Compared op k t →
    Spelled (.activeLevel op k) ("CurrentClassLevel".toList ++ t)
  | activeJob {job : Job} {negated : Bool} {p q j : List Char} :
    Pad p → Pad q → job.Named j →
    Spelled (.activeJob job negated)
      ("ClassName".toList ++
        (p ++ ((if negated then Comparison.ne else .eq).symbol.toList ++ (q ++ j))))

end Predicate

/-! ### Numbers -/

theorem toNat_of_isAsciiDigit {c : Char} (h : isAsciiDigit c = true) :
    48 ≤ c.toNat ∧ c.toNat ≤ 57 := Char.isDigit_iff_toNat.1 h

theorem isBlank_of_isAsciiDigit {c : Char} (h : isAsciiDigit c = true) : isBlank c = false := by
  obtain ⟨h1, h2⟩ := toNat_of_isAsciiDigit h
  rw [← Bool.not_eq_true]
  simp only [isBlank, Bool.or_eq_true, Bool.and_eq_true, decide_eq_true_eq, beq_iff_eq]
  omega

theorem isAsciiDigit_of_isBlank (c : Char) (h : isBlank c = true) : isAsciiDigit c = false := by
  cases hd : isAsciiDigit c
  · rfl
  · rw [isBlank_of_isAsciiDigit hd] at h; cases h

theorem digitValue?_of_digit {c : Char} (h : isAsciiDigit c = true) :
    Number.digitValue? 10 c = some (c.toNat - 48) := by
  obtain ⟨h1, h2⟩ := toNat_of_isAsciiDigit h
  have hd : c.isDigit = true := h
  unfold Number.digitValue?
  simp only [hd, if_true]
  rw [if_pos (by omega)]

theorem extend?_of_digits {d : List Char} (h : ∀ c ∈ d, isAsciiDigit c = true) (v : Nat) :
    Number.extend? 10 v d = some (d.foldl (fun v c => 10 * v + (c.toNat - 48)) v) := by
  induction d generalizing v with
  | nil => rfl
  | cons c d ih =>
    rw [Number.extend?, digitValue?_of_digit (h c (by simp))]
    simp only
    rw [ih fun c hc => h c (by simp [hc]), Nat.mul_comm]
    rfl

namespace Numeral

variable {n : UInt32} {d : List Char} (h : Numeral n d)

include h

theorem edged : Edged d := edged_of_solid h.1 fun c hc => isBlank_of_isAsciiDigit (h.2.1 c hc)

theorem word32? : Number.word32? 10 d = some n := by
  have hd : Number.digits? 10 d = some n.toNat := by
    rw [Number.digits?, if_neg (by simpa using h.1), extend?_of_digits h.2.1, h.2.2]
  have hu : Number.unsigned? 10 UInt32.size d = some n.toNat := by
    unfold Number.unsigned?
    split
    · cases h.2.1 '+' (by simp)
    · dsimp only
      rw [hd, Option.filter_some, if_pos (by simpa using n.toNat_lt)]
  rw [Number.word32?, hu, Option.map_some, UInt32.ofNat_toNat]

theorem number? {r : List Char} (hr : ∀ c ∈ r.head?, isAsciiDigit c = false) :
    Predicate.number? (d ++ r) = some (n, r) := by
  have hr' : r.takeWhile isAsciiDigit = [] ∧ r.dropWhile isAsciiDigit = r := by
    cases r with
    | nil => exact ⟨rfl, rfl⟩
    | cons c r => simp [hr c rfl]
  unfold Predicate.number?
  rw [List.takeWhile_append_of_pos h.2.1, List.dropWhile_append_of_pos h.2.1, hr'.1, hr'.2,
    List.append_nil, h.word32?]
  rfl

theorem lastNumber? : Predicate.lastNumber? d = some n := by
  have := h.number? (r := []) (by simp)
  rw [List.append_nil] at this
  rw [Predicate.lastNumber?, this]

end Numeral

/-! ### Classes -/

namespace Job

/-- A name in any letter case is one word. -/
theorem isAsciiWordChar_of_name {job : Job} {w : List Char}
    (h : sameLetters w job.name.toList = true) : ∀ c ∈ w, isAsciiWordChar c = true :=
  isAsciiWordChar_of_letters h (by cases job <;> decide)

/-- The word at the beginning of a text. -/
theorem takeWhile_word {w r : List Char} (hw : ∀ c ∈ w, isAsciiWordChar c = true)
    (hr : ∀ c ∈ r.head?, isAsciiWordChar c = false) :
    (w ++ r).takeWhile isAsciiWordChar = w ∧ (w ++ r).dropWhile isAsciiWordChar = r := by
  rw [List.takeWhile_append_of_pos hw, List.dropWhile_append_of_pos hw]
  cases r with
  | nil => simp
  | cons c r => simp [hr c rfl]

/-- No name begins with the mark. -/
theorem after?_mark_of_name {job : Job} {w r : List Char}
    (h : sameLetters w job.name.toList = true) (hr : ∀ c ∈ r.head?, isAsciiWordChar c = false) :
    after? mark (w ++ r) = none := by
  cases ha : after? mark (w ++ r) with
  | none => rfl
  | some rest =>
    have hw := (takeWhile_word (isAsciiWordChar_of_name h) hr).1
    have hm := (takeWhile_word (w := "ClassJobType".toList) (r := '.' :: rest) (by decide)
      (by simp; decide)).1
    have he : w = "ClassJobType".toList := by
      rw [← hw, after?_eq_some_iff.1 ha]
      exact hm
    subst he
    cases job <;> cases h

theorem Named.job? {job : Job} {t r : List Char} (h : job.Named t)
    (hr : ∀ c ∈ r.head?, isAsciiWordChar c = false) :
    Predicate.job? (t ++ r) = some (job, r) := by
  obtain ⟨w, hw, ht⟩ := h
  have hs : (after? mark (t ++ r)).getD (t ++ r) = w ++ r := by
    rcases ht with rfl | rfl
    · rw [after?_mark_of_name hw hr, Option.getD_none]
    · rw [List.append_assoc, after?_eq_some_iff.2 rfl, Option.getD_some]
  have hl : lower job.name.toList = job.name.toList := by cases job <;> decide
  obtain ⟨h1, h2⟩ := takeWhile_word (isAsciiWordChar_of_name hw) hr
  unfold Predicate.job?
  dsimp only
  rw [hs, h1, h2, beq_iff_eq.1 hw, hl, ofName?_name]
  rfl

theorem Named.mem {job : Job} {t : List Char} (h : job.Named t) {c : Char} (hc : c ∈ t) :
    isAsciiWordChar c = true ∨ c = '.' := by
  obtain ⟨w, hw, rfl | rfl⟩ := h
  · exact .inl (isAsciiWordChar_of_name hw c hc)
  · rcases List.mem_append.1 hc with hc | hc
    · have : ∀ c ∈ mark, isAsciiWordChar c = true ∨ c = '.' := by decide
      exact this c hc
    · exact .inl (isAsciiWordChar_of_name hw c hc)

theorem Named.solid {job : Job} {t : List Char} (h : job.Named t) :
    ∀ c ∈ t, isBlank c = false := by
  intro c hc
  rcases h.mem hc with hw | rfl
  · exact isBlank_of_isAsciiWordChar hw
  · rfl

theorem Named.edged {job : Job} {t : List Char} (h : job.Named t) : Edged t := by
  refine edged_of_solid ?_ h.solid
  rintro rfl
  obtain ⟨w, hw, ht⟩ := h
  rcases ht with rfl | ht
  · cases job <;> cases hw
  · cases ht

end Job

/-! ### Comparisons -/

namespace Predicate

theorem edged_symbol (op : Comparison) : Edged op.symbol.toList := by
  cases op <;> exact edged_of_solid (by decide) (by decide)

theorem comparison?_symbol (op : Comparison) {r : List Char} (hr : r.head? ≠ some '=') :
    comparison? (op.symbol.toList ++ r) = some (op, r) := by
  cases r with
  | nil => cases op <;> rfl
  | cons c r =>
    have hc : c ≠ '=' := by simpa using hr
    cases op <;> simp [comparison?, Comparison.symbol, hc]

theorem head?_ne_eq {p r : List Char} {c : Char} (hp : Pad p) (hc : c ≠ '=') :
    (p ++ c :: r).head? ≠ some '=' := by
  cases p with
  | nil => simpa using hc
  | cons d p =>
    intro he
    cases he
    cases hp '=' (by simp)

theorem Compared.compared? {op : Comparison} {k : UInt32} {t : List Char} (h : Compared op k t) :
    compared? t = some (op, k) := by
  obtain ⟨p, q, d, hp, hq, hd, rfl⟩ := h
  have hne : (q ++ d).head? ≠ some '=' := by
    obtain ⟨c, cs, rfl, -⟩ := hd.edged.cons
    refine head?_ne_eq hq ?_
    rintro rfl
    cases hd.2.1 '=' (by simp)
  have hs : skipBlanks (q ++ d) = d := trimLeft_pad hq hd.edged
  unfold Predicate.compared?
  rw [skipBlanks, dropWhile_pad hp (edged_symbol op), comparison?_symbol op hne]
  simp only [Option.bind_eq_bind, Option.bind_some, hs, hd.lastNumber?, Option.pure_def]

/-! ### Predicates -/

theorem skipBlanks_cons {p r : List Char} {c : Char} (hp : Pad p) (hc : isBlank c = false) :
    skipBlanks (p ++ c :: r) = c :: r :=
  dropWhile_pad hp (edged_of_solid (t := [c]) (by simp) (by simpa using hc)) r

/-- A number behind a bracket or a comma, and what follows it. -/
theorem number?_pad {n : UInt32} {p d q r : List Char} {c : Char} (hp : Pad p) (hd : Numeral n d)
    (hq : Pad q) (hc : isAsciiDigit c = false) :
    number? (skipBlanks (p ++ (d ++ (q ++ c :: r)))) = some (n, q ++ c :: r) := by
  rw [skipBlanks, dropWhile_pad hp hd.edged, hd.number? (hq.head isAsciiDigit_of_isBlank hc)]

theorem after?_frame (name : String) (r : List Char) :
    after? (name.toList ++ ['(']) (name.toList ++ '(' :: r) = some r :=
  after?_eq_some_iff.2 (by simp)

theorem read?_unary {name : String} {make : UInt32 → Predicate} {n : UInt32} {p d q : List Char}
    (hm : (name, make) ∈ unaries) (hp : Pad p) (hd : Numeral n d) (hq : Pad q) :
    read? (name.toList ++ '(' :: (p ++ (d ++ (q ++ [')'])))) = some (make n) := by
  have hu : unary? name (name.toList ++ '(' :: (p ++ (d ++ (q ++ [')'])))) = some n := by
    unfold unary?
    rw [after?_frame]
    simp only [Option.bind_eq_bind, Option.bind_some]
    rw [number?_pad hp hd hq (by rfl)]
    simp only [Option.bind_some]
    rw [skipBlanks_cons hq (by rfl)]
    rfl
  simp only [unaries, List.mem_cons, Prod.mk.injEq, List.not_mem_nil, or_false] at hm
  rcases hm with ⟨rfl, rfl⟩ | ⟨rfl, rfl⟩ | ⟨rfl, rfl⟩ | ⟨rfl, rfl⟩
  all_goals
    rw [read?, hu]
    rfl

theorem read?_binary {name : String} {make : UInt32 → UInt32 → Predicate} {n k : UInt32}
    {p d q p' d' q' : List Char} (hm : (name, make) ∈ binaries) (hp : Pad p) (hd : Numeral n d)
    (hq : Pad q) (hp' : Pad p') (hd' : Numeral k d') (hq' : Pad q') :
    read? (name.toList ++ '(' :: (p ++ (d ++ (q ++ ',' :: (p' ++ (d' ++ (q' ++ [')']))))))) =
      some (make n k) := by
  have hb : binary? name
      (name.toList ++ '(' :: (p ++ (d ++ (q ++ ',' :: (p' ++ (d' ++ (q' ++ [')']))))))) =
        some (n, k) := by
    unfold binary?
    rw [after?_frame]
    simp only [Option.bind_eq_bind, Option.bind_some]
    rw [number?_pad hp hd hq (by rfl)]
    simp only [Option.bind_some]
    rw [skipBlanks_cons hq (by rfl)]
    simp only
    rw [number?_pad hp' hd' hq' (by rfl)]
    simp only [Option.bind_some]
    rw [skipBlanks_cons hq' (by rfl)]
    rfl
  simp only [binaries, List.mem_cons, Prod.mk.injEq, List.not_mem_nil, or_false] at hm
  rcases hm with ⟨rfl, rfl⟩ | ⟨rfl, rfl⟩
  all_goals
    rw [read?, hb]
    rfl

theorem read?_questStep {n k : UInt32} {op : Comparison} {p d q t : List Char} (hp : Pad p)
    (hd : Numeral n d) (hq : Pad q) (ht : Compared op k t) :
    read? ("GetQuestStep(".toList ++ (p ++ (d ++ (q ++ ')' :: t)))) =
      some (.questStep n op k) := by
  have hs : questStep? ("GetQuestStep(".toList ++ (p ++ (d ++ (q ++ ')' :: t)))) =
      some (.questStep n op k) := by
    unfold questStep?
    rw [after?_eq_some_iff.2 rfl]
    simp only [Option.bind_eq_bind, Option.bind_some]
    rw [number?_pad hp hd hq (by rfl)]
    simp only [Option.bind_some]
    rw [skipBlanks_cons hq (by rfl)]
    simp only [ht.compared?, Option.bind_some, Option.pure_def]
  rw [read?, hs]
  rfl

theorem read?_level {job : Job} {k : UInt32} {op : Comparison} {p j q t : List Char} (hp : Pad p)
    (hj : job.Named j) (hq : Pad q) (ht : Compared op k t) :
    read? ("Levels[".toList ++ (p ++ (j ++ (q ++ ']' :: t)))) = some (.level job op k) := by
  have hl : level? ("Levels[".toList ++ (p ++ (j ++ (q ++ ']' :: t)))) =
      some (.level job op k) := by
    unfold level?
    rw [after?_eq_some_iff.2 rfl]
    simp only [Option.bind_eq_bind, Option.bind_some]
    rw [skipBlanks, dropWhile_pad hp hj.edged,
      hj.job? (hq.head isAsciiWordChar_of_isBlank (by rfl))]
    simp only [Option.bind_some]
    rw [skipBlanks_cons hq (by rfl)]
    simp only [ht.compared?, Option.bind_some, Option.pure_def]
  rw [read?, hl]
  rfl

theorem read?_activeLevel {k : UInt32} {op : Comparison} {t : List Char} (ht : Compared op k t) :
    read? ("CurrentClassLevel".toList ++ t) = some (.activeLevel op k) := by
  have hl : activeLevel? ("CurrentClassLevel".toList ++ t) = some (.activeLevel op k) := by
    unfold activeLevel?
    rw [after?_eq_some_iff.2 rfl]
    simp only [Option.bind_eq_bind, Option.bind_some, ht.compared?, Option.pure_def]
  rw [read?, hl]
  rfl

theorem read?_activeJob {job : Job} {negated : Bool} {p q j : List Char} (hp : Pad p) (hq : Pad q)
    (hj : job.Named j) : read? ("ClassName".toList ++
      (p ++ ((if negated then Comparison.ne else .eq).symbol.toList ++ (q ++ j)))) =
        some (.activeJob job negated) := by
  generalize hop : (if negated then Comparison.ne else .eq) = op
  have hne : (q ++ j).head? ≠ some '=' := by
    obtain ⟨c, cs, rfl, -⟩ := hj.edged.cons
    refine head?_ne_eq hq ?_
    rintro rfl
    rcases hj.mem (c := '=') (by simp) with hw | hw <;> cases hw
  have hr : skipBlanks (q ++ j) = j := trimLeft_pad hq hj.edged
  have hn := hj.job? (r := []) (by simp)
  rw [List.append_nil] at hn
  have ha : activeJob? ("ClassName".toList ++ (p ++ (op.symbol.toList ++ (q ++ j)))) =
      some (.activeJob job negated) := by
    unfold activeJob?
    rw [after?_eq_some_iff.2 rfl]
    simp only [Option.bind_eq_bind, Option.bind_some]
    rw [skipBlanks, dropWhile_pad hp (edged_symbol op), comparison?_symbol op hne]
    simp only [Option.bind_some, hr, hn]
    cases negated <;> subst hop <;> rfl
  rw [read?, ha]
  rfl

theorem read?_of_spelled {x : Predicate} {t : List Char} (h : Spelled x t) :
    read? t = some x := by
  cases h with
  | unary hm hp hd hq => exact read?_unary hm hp hd hq
  | binary hm hp hd hq hp' hd' hq' => exact read?_binary hm hp hd hq hp' hd' hq'
  | questStep hp hd hq ht => exact read?_questStep hp hd hq ht
  | level hp hj hq ht => exact read?_level hp hj hq ht
  | activeLevel ht => exact read?_activeLevel ht
  | activeJob hp hq hj => exact read?_activeJob hp hq hj

end Predicate

end Progression
