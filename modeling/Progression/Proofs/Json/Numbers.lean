import Mathlib.Algebra.Group.Nat.Defs
import Progression.Json.Basic
import Progression.Json.Token
import Progression.Proofs.Condition.Writing

/-!
Whole numbers in JSON. Their digits are a number by the grammar, they are read back as they are, and
those of 32 bits are far from overflowing a number of 64 bits.
-/

namespace Progression

namespace Number

/-! ### Digits -/

theorem digits?_decimal (n : Nat) : digits? 10 (decimal n) = some n := by
  rw [digits?, if_neg (by simpa using decimal_ne_nil n),
    extend?_of_digits (isAsciiDigit_decimal n), value_decimal]

theorem length_decimal_le {n k : Nat} (h : n < 10 ^ (k + 1)) : (decimal n).length ≤ k + 1 := by
  induction k generalizing n with
  | zero =>
    rw [decimal, if_pos (by omega)]
    simp
  | succ k ih =>
    rw [decimal]
    split
    · simp
    · have hshort : n / 10 < 10 ^ (k + 1) := by rwa [Nat.div_lt_iff_lt_mul (by decide)]
      simpa using ih hshort

/-- There are no leading zeros. -/
theorem head_decimal (n : Nat) : decimal n = ['0'] ∨ (decimal n).head? ≠ some '0' := by
  have hdigit : ∀ d < 10, d ≠ 0 → digitChar d ≠ '0' := by decide
  fun_induction decimal n with
  | case1 n h =>
    by_cases hzero : n = 0
    · subst hzero
      exact .inl rfl
    · exact .inr (by simpa using hdigit n h hzero)
  | case2 n h ih =>
    refine .inr ?_
    have hhead : (decimal (n / 10) ++ [digitChar (n % 10)]).head? = (decimal (n / 10)).head? := by
      obtain ⟨c, cs, hcs⟩ := List.exists_cons_of_ne_nil (decimal_ne_nil (n / 10))
      rw [hcs]
      rfl
    rw [hhead]
    rcases ih with hzero | hne
    · have hvalue := value_decimal (n / 10)
      rw [hzero] at hvalue
      simp at hvalue
      omega
    · exact hne

/-- Digits are no word for infinity or for no number. -/
theorem literal_decimal (n : Nat) : Literal.read? (decimal n) = some (.finite false ⟨n, 0⟩) := by
  have hdigits := isAsciiDigit_decimal n
  have hdecimal : Literal.decimal? (decimal n) = some ⟨n, 0⟩ := by
    have htake := List.takeWhile_eq_self_iff.2 hdigits
    have hdrop := List.dropWhile_eq_nil_iff.2 hdigits
    simp [Literal.decimal?, htake, hdrop, digits?_decimal, Literal.exponent?]
  have hword : ∀ e w, e.toLower = e → Text.isAsciiDigit e = false →
      Text.sameLetters (decimal n) (e :: w) = false := by
    intro e w hlower he
    obtain ⟨c, cs, hcs⟩ := List.exists_cons_of_ne_nil (decimal_ne_nil n)
    have hc : Text.isAsciiDigit c = true := hdigits c (by simp [hcs])
    have hne : c ≠ e := by
      rintro rfl
      rw [hc] at he
      cases he
    have hself : c.toLower = c := Text.toLower_eq_self (by have := toNat_of_isAsciiDigit hc; omega)
    simp [Text.sameLetters, Text.lower, hcs, hself, hlower, hne]
  have hunsigned : Literal.unsigned? false (decimal n) = some (.finite false ⟨n, 0⟩) := by
    have hinf : Text.sameLetters (decimal n) "inf".toList = false := hword _ _ rfl rfl
    have hinfinity : Text.sameLetters (decimal n) "infinity".toList = false := hword _ _ rfl rfl
    have hnan : Text.sameLetters (decimal n) "nan".toList = false := hword _ _ rfl rfl
    rw [Literal.unsigned?, hinf, hinfinity, hnan, hdecimal]
    rfl
  unfold Literal.read?
  split
  · next s hs => exact absurd (hdigits '-' (by simp [hs])) (by decide)
  · next s hs => exact absurd (hdigits '+' (by simp [hs])) (by decide)
  · exact hunsigned

/-! ### Rounding -/

/-- A significand far below the largest exponent is no infinity. -/
theorem pack_lt_infinity {s : Nat} {e : Int} (hs : s < 2 ^ 53) (he : e < 0) :
    double.pack s e < double.infinity := by
  have hhidden : Nat.pow 2 (double.precision - 1) = 4503599627370496 := by decide
  have hinfinity : double.infinity = 2047 * 4503599627370496 := by decide
  have hlowest : double.lowest = -1074 := rfl
  have hplace : (e - double.lowest).toNat + 1 ≤ 1074 := by omega
  have hbits := Nat.mul_le_mul_right 4503599627370496 hplace
  simp only [Binary.pack, hhidden]
  refine Nat.lt_of_le_of_lt (Nat.min_le_left ..) ?_
  rw [hinfinity]
  split <;> omega

/-- A whole number of 32 bits is below the largest number of 64 bits by far. -/
theorem round_lt_infinity {n : Nat} (h : n < 2 ^ 32) : double.round n 1 < double.infinity := by
  by_cases hne : n = 0
  · subst hne
    decide
  have hlog : n.log2 < 32 := (Nat.log2_lt hne).2 h
  have hleading : Binary.leading n 1 = n.log2 := by
    have hone : Nat.log2 1 = 0 := by decide
    have hle : Binary.powLe n.log2 n 1 = true := by simp [Binary.powLe, Nat.log2_self_le hne]
    simp [Binary.leading, hone, hle]
  have hplace : max (Binary.leading n 1 - (double.precision - 1 : Nat)) double.lowest =
      (n.log2 : Int) - 52 := by
    rw [hleading]
    simp only [double]
    omega
  have hsignificand : n * 2 ^ (52 - n.log2) < 2 ^ 53 := by
    calc n * 2 ^ (52 - n.log2) < 2 ^ (n.log2 + 1) * 2 ^ (52 - n.log2) :=
          Nat.mul_lt_mul_of_pos_right Nat.lt_log2_self (Nat.two_pow_pos _)
      _ = 2 ^ 53 := by rw [← Nat.pow_add]; congr 1; omega
  have hround : roundDiv (n * 2 ^ (52 - n.log2)) 1 = n * 2 ^ (52 - n.log2) := by
    simp [roundDiv, Nat.mod_one]
  have hscale : (-((n.log2 : Int) - 52)).toNat = 52 - n.log2 ∧ ((n.log2 : Int) - 52).toNat = 0 := by
    omega
  rw [Binary.round, if_neg hne]
  simp only [hplace, hscale, Nat.pow_eq, Nat.pow_zero, Nat.one_mul, hround]
  exact pack_lt_infinity hsignificand (by omega)

end Number

namespace Json

open Number

theorem isNumber_decimal (n : Nat) : isNumber (decimal n) = true := by
  have hdigits : ∀ c ∈ decimal n, c.isDigit = true := isAsciiDigit_decimal n
  have htake := List.takeWhile_eq_self_iff.2 hdigits
  have hdrop := List.dropWhile_eq_nil_iff.2 hdigits
  have hmagnitude : isMagnitude (decimal n) = true := by
    have hsome : someDigits (decimal n) = true := by
      simpa [someDigits] using ⟨decimal_ne_nil n, hdigits⟩
    simpa [isMagnitude, htake, hdrop, hsome, isFraction, isExponent] using head_decimal n
  unfold isNumber
  split
  · next s hs => exact absurd (hdigits '-' (by simp [hs])) (by decide)
  · exact hmagnitude

/-- A whole number of 32 bits is read back. -/
@[simp] theorem word32?_ofNat (n : UInt32) : (ofNat n.toNat).word32? = some n := by
  have hdigits : (decimal n.toNat).all Text.isAsciiDigit = true :=
    List.all_eq_true.2 (isAsciiDigit_decimal _)
  rw [word32?, ofNat, natBelow?, text, String.toList_ofList, if_pos hdigits, digits?_decimal,
    Option.filter_some, if_pos (by simpa using n.toNat_lt), Option.map_some, UInt32.ofNat_toNat]

@[simp] theorem isFinite_ofNat (n : UInt32) : (ofNat n.toNat).isFinite = true := by
  have hlength : (decimal n.toNat).length ≤ 10 := length_decimal_le (n.toNat_lt.trans (by decide))
  have hbits : double.ofDecimal ⟨n.toNat, 0⟩ < double.infinity := by
    simp only [Binary.ofDecimal]
    split_ifs
    · decide
    · omega
    · simpa using round_lt_infinity n.toNat_lt
  have hmagnitude : double.magnitude (double.ofDecimal ⟨n.toNat, 0⟩) =
      double.ofDecimal ⟨n.toNat, 0⟩ := Nat.mod_eq_of_lt (hbits.trans (by decide))
  simp [isFinite, isFiniteLiteral, ofNat, text, literal_decimal, Binary.ofLiteral, hmagnitude, hbits]

end Json
end Progression
