import Progression.Json.Reader
import Progression.Proofs.Json.Lexing

/-!
Values from their own text. The tokens of a value are taken as that value wherever one is expected,
inside whatever is open there; so a value whose numbers are spelled as numbers is read from its
compact text as it is.
-/

namespace Progression.Json

open build? (value? done?)

variable {v : Json}

/-- A token that is a value by itself. -/
theorem build?_plain {t : Token} (h : t.plain? = some v) (ts : List Token) (fs : List Frame) :
    build? (t :: ts) .value fs = done? v ts fs := by
  cases t <;> simp_all [build?, value?, Token.plain?]

/-- A value begins with a token of its own. -/
theorem exists_tokens_eq_cons (v : Json) : ∃ t ts, tokens v = t :: ts ∧ t ≠ .closeArray := by
  cases v with
  | bool b => cases b <;> exact ⟨_, _, rfl, by decide⟩
  | _ => exact ⟨_, _, rfl, nofun⟩

theorem exists_itemTokens_cons (v : Json) (vs : List Json) :
    ∃ t ts, itemTokens (v :: vs) = t :: ts ∧ t ≠ .closeArray := by
  obtain ⟨t, rest, htokens, hne⟩ := exists_tokens_eq_cons v
  cases vs with
  | nil => exact ⟨t, rest, htokens, hne⟩
  | cons w vs => exact ⟨t, _, congrArg (· ++ _) htokens, hne⟩

/-- The first item is no end of the array. -/
theorem build?_firstItem (v : Json) (vs : List Json) (ts : List Token) (fs : List Frame) :
    build? (itemTokens (v :: vs) ++ ts) .firstItem fs =
      build? (itemTokens (v :: vs) ++ ts) .value fs := by
  obtain ⟨t, rest, htokens, hne⟩ := exists_itemTokens_cons v vs
  rw [htokens, List.cons_append, build?, build?]
  exact fun _ _ ht => absurd ht hne

/-- The first field begins with its name, as every field. -/
theorem build?_firstName (f : String × Json) (vs : List (String × Json)) (ts : List Token)
    (fs : List Frame) : build? (fieldTokens (f :: vs) ++ ts) .firstName fs =
      build? (fieldTokens (f :: vs) ++ ts) .name fs := by
  cases vs <;> simp [fieldTokens, build?]

mutual

/-- The tokens of a value, where one is expected. -/
theorem build?_tokens : ∀ (v : Json) (ts : List Token) (fs : List Frame),
    build? (tokens v ++ ts) .value fs = done? v ts fs
  | null, _, _ => build?_plain rfl _ _
  | bool true, _, _ => build?_plain rfl _ _
  | bool false, _, _ => build?_plain rfl _ _
  | number _, _, _ => build?_plain rfl _ _
  | string _, _, _ => build?_plain rfl _ _
  | array [], _, _ => by simp [tokens, itemTokens, build?, value?]
  | array (v :: vs), ts, fs => by
    have hitems := build?_itemTokens (v :: vs) (by simp) [] ts fs
    rw [← build?_firstItem] at hitems
    simpa [tokens, build?, value?] using hitems
  | object [], _, _ => by simp [tokens, fieldTokens, build?, value?]
  | object (f :: vs), ts, fs => by
    have hfields := build?_fieldTokens (f :: vs) (by simp) [] "" ts fs
    rw [← build?_firstName] at hfields
    simpa [tokens, build?, value?] using hfields

/-- The tokens of items, and the end of their array. -/
theorem build?_itemTokens : ∀ vs : List Json, vs ≠ [] →
    ∀ (items : List Json) (ts : List Token) (fs : List Frame),
    build? (itemTokens vs ++ .closeArray :: ts) .value (.array items :: fs) =
      done? (.array (items.reverse ++ vs)) ts fs
  | [], h, _, _, _ => absurd rfl h
  | [v], _, items, ts, fs => by
    rw [itemTokens, build?_tokens]
    simp [done?, Frame.add, build?]
  | v :: w :: vs, _, items, ts, fs => by
    have hrest := build?_itemTokens (w :: vs) (by simp) (v :: items) ts fs
    rw [itemTokens, List.append_assoc, build?_tokens]
    · simpa [done?, Frame.add, build?] using hrest
    · simp

/-- The tokens of fields, and the end of their object. -/
theorem build?_fieldTokens : ∀ vs : List (String × Json), vs ≠ [] →
    ∀ (fields : List (String × Json)) (name : String) (ts : List Token) (fs : List Frame),
    build? (fieldTokens vs ++ .closeObject :: ts) .name (.object fields name :: fs) =
      done? (.object (fields.reverse ++ vs)) ts fs
  | [], h, _, _, _, _ => absurd rfl h
  | [(k, v)], _, fields, name, ts, fs => by
    have hvalue := build?_tokens v (.closeObject :: ts) (.object fields k :: fs)
    simpa [fieldTokens, build?, done?, Frame.add] using hvalue
  | (k, v) :: f :: vs, _, fields, name, ts, fs => by
    have hrest := build?_fieldTokens (f :: vs) (by simp) ((k, v) :: fields) k ts fs
    have hvalue := build?_tokens v (.comma :: fieldTokens (f :: vs) ++ .closeObject :: ts)
      (.object fields k :: fs)
    simp only [List.cons_append, build?, done?, Frame.add] at hvalue
    simpa [fieldTokens, build?, hvalue] using hrest

end

/-- A value whose numbers are spelled as numbers is read back from its text. -/
theorem read?_render (h : Spelled v) : read? (render v) = some v := by
  have hlex : Lexer.between.run? (compact v) = some (tokens v) := by
    simpa [Lexer.run?] using lexes_compact v h [] (by simp [Parted])
  have hbuild := build?_tokens v [] []
  rw [List.append_nil] at hbuild
  rw [read?, render, String.toList_ofList, hlex]
  simpa [done?] using hbuild

end Progression.Json
