import Progression.Markup.Reference
import Progression.Proofs.Text

/-!
Texts written with references. A character may be written as it is, by a predefined name, or by
its code point in decimal or hexadecimal digits; `Encoded` says that a text is written so, and
decoding takes every such writing back (`decode_append`).
-/

namespace Progression.Markup

open Progression.Text

/-! ### Digits -/

/-- The digits with their values; letters stand for ten and above. -/
def digitTable : List (Char × Nat) :=
  "0123456789abcdef".toList.zipIdx ++ "ABCDEF".toList.zipIdx 10

/-- A text of digits with its value. There may be leading zeros. -/
inductive Digits (radix : Nat) : Nat → List Char → Prop
  | one {c : Char} {v : Nat} : (c, v) ∈ digitTable → v < radix → Digits radix v [c]
  | more {n v : Nat} {s : List Char} {c : Char} : Digits radix n s → (c, v) ∈ digitTable →
    v < radix → Digits radix (n * radix + v) (s ++ [c])

theorem digitValue?_of_mem : ∀ p ∈ digitTable, ∀ radix ∈ [10, 16], p.2 < radix →
    Number.digitValue? radix p.1 = some p.2 := by decide

theorem isAlphanum_of_mem : ∀ p ∈ digitTable, p.1.isAlphanum = true := by decide

theorem extend?_concat {radix n v k : Nat} {s : List Char} {c : Char}
    (h : Number.extend? radix n s = some v) (hc : Number.digitValue? radix c = some k) :
    Number.extend? radix n (s ++ [c]) = some (v * radix + k) := by
  induction s generalizing n with
  | nil =>
    cases h
    simp [Number.extend?, hc]
  | cons d s ih =>
    rw [Number.extend?] at h
    rw [List.cons_append, Number.extend?]
    split at h
    · next hd => exact ih h
    · cases h

namespace Digits

variable {radix n : Nat} {s : List Char} (h : Digits radix n s)

include h

theorem isAlphanum : ∀ c ∈ s, c.isAlphanum = true := by
  induction h with
  | one hc _ => simpa using isAlphanum_of_mem _ hc
  | more _ hc _ ih => exact List.forall_mem_append.2 ⟨ih, by simpa using isAlphanum_of_mem _ hc⟩

theorem ne_nil : s ≠ [] := by cases h <;> simp

theorem extend? (hr : radix ∈ [10, 16]) : Number.extend? radix 0 s = some n := by
  induction h with
  | one hc hv => simp [Number.extend?, digitValue?_of_mem _ hc radix hr hv]
  | more _ hc hv ih => exact extend?_concat ih (digitValue?_of_mem _ hc radix hr hv)

/-- A code point in digits is read as its character. -/
theorem codePoint? {c : Char} (hr : radix ∈ [10, 16]) (hn : n = c.toNat) :
    codePoint? radix s = some c := by
  subst hn
  have hd : Number.digits? radix s = some c.toNat := by
    rw [Number.digits?, if_neg (by simpa using h.ne_nil), h.extend? hr]
  have hlt : c.toNat < UInt32.size := c.val.toNat_lt
  have hu : Number.unsigned? radix UInt32.size s = some c.toNat := by
    unfold Number.unsigned?
    split
    · cases h.isAlphanum '+' (by simp)
    · dsimp only
      rw [hd, Option.filter_some, if_pos (by simpa using hlt)]
  unfold Markup.codePoint? Number.word32?
  rw [hu, Option.map_some, Option.bind_some, UInt32.toNat_ofNat_of_lt' hlt]
  have hv : c.toNat.isValidChar := c.valid
  unfold ofCodePoint?
  rw [dif_pos hv]
  rfl

end Digits

theorem Digits.isDigit {n : Nat} {s : List Char} (h : Digits 10 n s) :
    ∀ c ∈ s, c.isDigit = true := by
  have hall : ∀ p ∈ digitTable, p.2 < 10 → p.1.isDigit = true := by decide
  induction h with
  | one hc hv => simpa using hall _ hc hv
  | more _ hc hv ih => exact List.forall_mem_append.2 ⟨ih, by simpa using hall _ hc hv⟩

/-! ### References -/

/-- A text that names a character between `&` and `;`. -/
inductive Refers (c : Char) : List Char → Prop
  | predefined {name : List Char} : (name, c) ∈ predefined → Refers c name
  | decimal {s : List Char} : Digits 10 c.toNat s → Refers c ('#' :: s)
  | hexadecimal {x : Char} {s : List Char} : x = 'x' ∨ x = 'X' → Digits 16 c.toNat s →
    Refers c ('#' :: x :: s)

/-- No predefined name begins with `#`. -/
theorem lookup_hash (s : List Char) : predefined.lookup ('#' :: s) = none := (rfl)

theorem lookup_predefined : ∀ p ∈ predefined, predefined.lookup p.1 = some p.2 := by decide

namespace Refers

variable {c : Char} {name : List Char} (h : Refers c name)

include h

theorem isAlphanum : ∀ d ∈ name, d.isAlphanum = true ∨ d = '#' := by
  cases h with
  | predefined hm =>
    have hall : ∀ p ∈ Markup.predefined, ∀ d ∈ p.1, d.isAlphanum = true ∨ d = '#' := by decide
    exact hall _ hm
  | decimal hd => exact List.forall_mem_cons.2 ⟨.inr rfl, fun d hm => .inl (hd.isAlphanum d hm)⟩
  | hexadecimal hx hd =>
    refine List.forall_mem_cons.2 ⟨.inr rfl, List.forall_mem_cons.2 ⟨?_, ?_⟩⟩
    · rcases hx with rfl | rfl <;> exact .inl rfl
    · exact fun d hm => .inl (hd.isAlphanum d hm)

/-- A reference is read as its character. -/
theorem referenced? : referenced? name = some c := by
  cases h with
  | predefined hm =>
    unfold Markup.referenced?
    rw [lookup_predefined _ hm]
  | decimal hd =>
    unfold Markup.referenced?
    rw [lookup_hash]
    dsimp only
    -- A digit is none of the two letters that announce hexadecimal digits.
    split
    · next heq => cases heq; cases hd.isDigit 'x' (by simp)
    · next heq => cases heq; cases hd.isDigit 'X' (by simp)
    · next heq => cases heq; exact hd.codePoint? (by decide) rfl
    · next hne => exact absurd rfl (hne _)
  | hexadecimal hx hd =>
    unfold Markup.referenced?
    rw [lookup_hash]
    rcases hx with rfl | rfl <;> exact hd.codePoint? (by decide) rfl

theorem not_mem {d : Char} (hd : d.isAlphanum = false) (hh : d ≠ '#') : d ∉ name := by
  intro hm
  rcases h.isAlphanum d hm with ha | rfl
  · rw [hd] at ha
    cases ha
  · exact hh rfl

end Refers

/-! ### Encoded texts -/

/-- A text written so that some characters, and `&`, do not stand in it by themselves. -/
inductive Encoded (avoided : List Char) : List Char → List Char → Prop
  | nil : Encoded avoided [] []
  | literal {c : Char} {t raw : List Char} : c ≠ '&' → c ∉ avoided → Encoded avoided t raw →
    Encoded avoided (c :: t) (c :: raw)
  | reference {c : Char} {name t raw : List Char} : Refers c name → Encoded avoided t raw →
    Encoded avoided (c :: t) ('&' :: (name ++ ';' :: raw))

/-- A mark of one character is found behind a text without it. -/
theorem cut?_singleton {q : Char} {s : List Char} (h : q ∉ s) (rest : List Char) :
    cut? [q] (s ++ q :: rest) = some (s, rest) := by
  induction s with
  | nil => simp [cut?, after?]
  | cons c s ih =>
    obtain ⟨hc, hs⟩ := List.ne_and_not_mem_of_not_mem_cons h
    simp [cut?, after?, hc, ih hs]

theorem not_mem_of_cut? {q : Char} {s v r : List Char} (h : cut? [q] s = some (v, r)) :
    q ∉ v := by
  intro hq
  obtain ⟨a, b, rfl, ha⟩ := List.eq_append_cons_of_mem hq
  have hs := eq_of_cut? h
  simp only [List.append_assoc, List.cons_append] at hs
  rw [hs, cut?_singleton ha] at h
  simp at h

theorem decode_cons {c : Char} (h : c ≠ '&') (s : List Char) : decode (c :: s) = c :: decode s := by
  rw [decode, if_neg h]

theorem decode_reference {c : Char} {name : List Char} (h : Refers c name) (rest : List Char) :
    decode ('&' :: (name ++ ';' :: rest)) = c :: decode rest := by
  have hc := cut?_singleton (h.not_mem (d := ';') rfl (by decide)) rest
  rw [decode, if_pos rfl]
  split
  · next heq =>
    rw [hc] at heq
    cases heq
    rw [h.referenced?]
  · next heq =>
    rw [hc] at heq
    cases heq

namespace Encoded

variable {avoided t raw : List Char} (h : Encoded avoided t raw)

include h

/-- Decoding takes a writing back, whatever stands behind it. -/
theorem decode_append (rest : List Char) : decode (raw ++ rest) = t ++ decode rest := by
  induction h with
  | nil => rfl
  | literal hc _ _ ih => rw [List.cons_append, decode_cons hc, ih, List.cons_append]
  | reference hr _ ih =>
    rw [List.cons_append, List.append_assoc, List.cons_append, decode_reference hr, ih,
      List.cons_append]

theorem decode : decode raw = t := by
  have := h.decode_append []
  rwa [List.append_nil, Markup.decode, List.append_nil] at this

theorem not_mem {d : Char} (hd : d ∈ avoided) (ha : d.isAlphanum = false)
    (hn : d ≠ '&' ∧ d ≠ '#' ∧ d ≠ ';') : d ∉ raw := by
  obtain ⟨h1, h2, h3⟩ := hn
  induction h with
  | nil => simp
  | literal _ hc _ ih =>
    refine List.not_mem_cons_of_ne_of_not_mem ?_ ih
    rintro rfl
    exact hc hd
  | reference hr _ ih => simp [h1, h3, hr.not_mem ha h2, ih]

end Encoded

end Progression.Markup
