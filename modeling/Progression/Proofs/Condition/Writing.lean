import Progression.Proofs.Condition.Reading

/-!
Every condition can be written: connectives with two parts or more, any predicates, and words that
nothing else claims. Numbers are written in decimal, and every part is put in parentheses.
-/

namespace Progression

open Progression.Text

/-! ### Numbers -/

theorem toNat_digitChar {d : Nat} (h : d < 10) : (Number.digitChar d).toNat = 48 + d := by
  have : ∀ d < 10, (Number.digitChar d).toNat = 48 + d := by decide
  exact this d h

theorem decimal_ne_nil (n : Nat) : Number.decimal n ≠ [] := by
  rw [Number.decimal]
  split <;> simp

theorem isAsciiDigit_decimal (n : Nat) : ∀ c ∈ Number.decimal n, isAsciiDigit c = true := by
  have hd : ∀ d < 10, isAsciiDigit (Number.digitChar d) = true := by decide
  fun_induction Number.decimal n with
  | case1 n h => simpa using hd n h
  | case2 n _ ih =>
    have hm : n % 10 < 10 := Nat.mod_lt n (by omega)
    exact List.forall_mem_append.2 ⟨ih, by simpa using hd _ hm⟩

theorem value_decimal (n : Nat) :
    (Number.decimal n).foldl (fun v c => 10 * v + (c.toNat - 48)) 0 = n := by
  fun_induction Number.decimal n with
  | case1 n h =>
    rw [List.foldl_cons, toNat_digitChar h, List.foldl_nil]
    omega
  | case2 n _ ih =>
    rw [List.foldl_append, ih, List.foldl_cons, toNat_digitChar (Nat.mod_lt n (by omega)),
      List.foldl_nil]
    omega

/-- Decimal digits stand for their number. -/
theorem numeral_decimal (n : UInt32) : Numeral n (Number.decimal n.toNat) :=
  ⟨decimal_ne_nil _, isAsciiDigit_decimal _, value_decimal _⟩

theorem Job.named_name (job : Job) : job.Named job.name.toList :=
  ⟨_, beq_self_eq_true _, .inl rfl⟩

/-! ### Predicates -/

namespace Predicate

theorem exists_compared (op : Comparison) (k : UInt32) : ∃ t, Compared op k t :=
  ⟨_, [], [], _, .nil, .nil, numeral_decimal k, rfl⟩

theorem exists_spelled (x : Predicate) : ∃ t, Spelled x t := by
  have hunary : ∀ name make, (name, make) ∈ unaries → ∀ n, ∃ t, Spelled (make n) t :=
    fun _ _ hm n => ⟨_, .unary hm .nil (numeral_decimal n) .nil⟩
  have hbinary : ∀ name make, (name, make) ∈ binaries → ∀ n k, ∃ t, Spelled (make n k) t :=
    fun _ _ hm n k => ⟨_, .binary hm .nil (numeral_decimal n) .nil .nil (numeral_decimal k) .nil⟩
  cases x with
  | isQuestCompleted id => exact hunary "IsQuestCompleted" _ (by simp [unaries]) id
  | hasQuest id => exact hunary "HasQuest" _ (by simp [unaries]) id
  | hasItem id => exact hunary "HasItem" _ (by simp [unaries]) id
  | isQuestAcceptQualified id => exact hunary "IsQuestAcceptQualified" _ (by simp [unaries]) id
  | hqHasAtLeast id amount => exact hbinary "HqHasAtLeast" _ (by simp [binaries]) id amount
  | nqHasAtLeast id amount => exact hbinary "NqHasAtLeast" _ (by simp [binaries]) id amount
  | questStep id op value =>
    obtain ⟨t, ht⟩ := exists_compared op value
    exact ⟨_, .questStep .nil (numeral_decimal id) .nil ht⟩
  | level job op value =>
    obtain ⟨t, ht⟩ := exists_compared op value
    exact ⟨_, .level .nil job.named_name .nil ht⟩
  | activeLevel op value =>
    obtain ⟨t, ht⟩ := exists_compared op value
    exact ⟨_, .activeLevel ht⟩
  | activeJob job negated => exact ⟨_, .activeJob .nil .nil job.named_name⟩

end Predicate

/-! ### Conditions -/

namespace Condition

mutual

/-- Whether a condition can be written. -/
def Writable : Condition → Prop
  | any parts => 2 ≤ parts.length ∧ AllWritable parts
  | all parts => 2 ≤ parts.length ∧ AllWritable parts
  | not part => Writable part
  | literal _ => True
  | atom _ => True
  | unknown text => Plain text.toList

/-- The same for several conditions. -/
def AllWritable : List Condition → Prop
  | [] => True
  | c :: cs => Writable c ∧ AllWritable cs

end

theorem gap_space : Gap [' '] := ⟨by decide, by decide⟩

theorem exists_joined (word : List Char) {ts : List (List Char)} (hne : ts ≠ []) :
    ∃ u, Joined word ts u := by
  induction ts with
  | nil => exact absurd rfl hne
  | cons t ts ih =>
    cases ts with
    | nil => exact ⟨t, .one t⟩
    | cons t' ts =>
      obtain ⟨u, hu⟩ := ih (by simp)
      exact ⟨_, .more gap_space (beq_self_eq_true _) gap_space hu⟩

theorem Spells.loosen_to {n : Nat} {c : Condition} {t : List Char} (h : Spells n c t) :
    Spells 0 c t := by
  induction n with
  | zero => exact h
  | succ n ih => exact ih (.loosen h)

theorem exists_group {n : Nat} {c : Condition} (h : ∃ t, Spells n c t) : ∃ t, Spells 2 c t := by
  obtain ⟨t, ht⟩ := h
  exact ⟨_, .group .nil ht.loosen_to .nil⟩

theorem joined_parts (word : List Char) {ps : List (Condition × List Char)}
    (hl : 2 ≤ ps.length) : ∃ t, Joined word (ps.map (·.2)) t := by
  refine exists_joined word fun he => ?_
  rw [List.map_eq_nil_iff.1 he] at hl
  cases hl

mutual

/-- A condition with two parts or more in every connective, and with words that are read as
themselves, can be written. -/
theorem exists_spells (c : Condition) (h : Writable c) : ∃ t, Spells 2 c t := by
  cases c with
  | any parts =>
    obtain ⟨ps, rfl, hps⟩ := exists_parts parts h.2
    have hl : 2 ≤ ps.length := by simpa using h.1
    obtain ⟨t, ht⟩ := joined_parts "or".toList hl
    exact exists_group ⟨t, .any hl (fun x hx => .loosen (hps x hx)) ht⟩
  | all parts =>
    obtain ⟨ps, rfl, hps⟩ := exists_parts parts h.2
    have hl : 2 ≤ ps.length := by simpa using h.1
    obtain ⟨t, ht⟩ := joined_parts "and".toList hl
    exact exists_group ⟨t, .all hl hps ht⟩
  | not part =>
    obtain ⟨t, ht⟩ := exists_spells part h
    exact ⟨_, .not (beq_self_eq_true _) gap_space ht⟩
  | literal value => exact ⟨_, .literal (beq_self_eq_true _)⟩
  | atom x =>
    obtain ⟨t, ht⟩ := x.exists_spelled
    exact ⟨t, .atom ht⟩
  | unknown text =>
    have := Spells.unknown h
    rw [String.ofList_toList] at this
    exact ⟨_, this⟩

theorem exists_parts (cs : List Condition) (h : AllWritable cs) :
    ∃ ps : List (Condition × List Char), ps.map (·.1) = cs ∧ ∀ x ∈ ps, Spells 2 x.1 x.2 := by
  cases cs with
  | nil => exact ⟨[], rfl, by simp⟩
  | cons c cs =>
    obtain ⟨t, ht⟩ := exists_spells c h.1
    obtain ⟨ps, hp, hps⟩ := exists_parts cs h.2
    exact ⟨(c, t) :: ps, by rw [List.map_cons, hp], List.forall_mem_cons.2 ⟨ht, hps⟩⟩

end

/-- Every condition that can be written is read from some text. -/
theorem exists_parse {c : Condition} (h : Writable c) : ∃ s, parse s = c := by
  obtain ⟨t, ht⟩ := exists_spells c h
  exact ⟨_, (reads_of_spells ht).parse .nil .nil (.refl _)⟩

end Condition
end Progression
