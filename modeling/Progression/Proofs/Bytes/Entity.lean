import Progression.Proofs.Bytes.Text
import Progression.Proofs.Markup.Lines

/-!
Entities over bytes. The block is found by its offset and ends at another one, and the text is put
together from what stands before and behind; references to characters are cut out between the
offsets of `&` and `;`.
-/

namespace Progression.Bytes

open Progression.Text Progression.Markup

/-! ### The block -/

/-- The offset of a word in any case of its letters. -/
def position (word : List Char) : List (Option Char) → Option Nat
  | [] => none
  | b :: bs =>
    if isWord word ((b :: bs).take word.length) then some 0 else (position word bs).map (· + 1)

/-- The offset of the `>` that ends a block, looked for from an offset on. -/
def blockEndFrom (s : Bytes) (i : Nat) (inBrackets : Bool) (quote : Option Char) :
    Option (Option Nat) :=
  if i < size s then do
    let b ← (letters s)[i]?
    match quote with
    | some q => s |>.blockEndFrom (i + 1) inBrackets (if b = some q then none else some q)
    | none =>
      if b = some '"' ∨ b = some '\'' then s |>.blockEndFrom (i + 1) inBrackets b
      else if b = some '<' ∧ inBrackets then
        let tail ← span? (letters s) i (size s)
        if beginsWith "<!--".toList tail then
          match find "-->".toList (← drop? s (i + 4)) with
          | none => return none
          | some close => s |>.blockEndFrom (i + 4 + close + 3) inBrackets none
        else s |>.blockEndFrom (i + 1) inBrackets none
      else if b = some '[' ∧ !inBrackets then s |>.blockEndFrom (i + 1) true none
      else if b = some ']' ∧ inBrackets then s |>.blockEndFrom (i + 1) false none
      else if b = some '>' ∧ !inBrackets then return some i
      else s |>.blockEndFrom (i + 1) inBrackets none
  else return none
partial_fixpoint

def strip (source : String) (s : Bytes) : Option (Except Error (List Char × List Entity)) :=
  match position "<!DOCTYPE".toList (letters s) with
  | none => return .ok (s, [])
  | some start => do
    let rest ← drop? s start
    match ← blockEndFrom rest 0 false none with
    | none => return .error (.parse source (← lineOf s start) "unterminated DOCTYPE")
    | some stop =>
      let block ← take? rest (stop + 1)
      let before ← take? s start
      let after ← drop? rest (stop + 1)
      return .ok (before ++ List.replicate (block.count '\n') '\n' ++ after, declarations block)

section Block

variable {p r s : List Char} {c : Char}

theorem isWord_none {word : List Char} (hne : word ≠ []) (bs : List (Option Char)) :
    isWord word ((none :: bs).take word.length) = false := by
  obtain ⟨w, word, rfl⟩ := List.exists_cons_of_ne_nil hne
  simp [isWord]

theorem position_replicate {word : List Char} (hne : word ≠ []) (k : Nat)
    (bs : List (Option Char)) :
    position word (List.replicate k none ++ bs) = (position word bs).map (· + k) := by
  induction k with
  | zero => simp
  | succ k ih =>
    rw [List.replicate_succ, List.cons_append, position, isWord_none hne, ih]
    simp [Function.comp_def, Nat.add_assoc]

theorem position_cons {word : List Char} (hne : word ≠ []) (hword : Ascii word) (c : Char)
    (s : List Char) : position word (letters (c :: s)) =
      if (afterWord? word (c :: s)).isSome then some 0
      else (position word (letters s)).map (· + c.utf8Size) := by
  rw [← isWord_take hword]
  by_cases hc : c.toNat < 128
  · rw [letters_cons_of_ascii hc, position, utf8Size_of_ascii hc]
  · obtain ⟨k, hk⟩ := Nat.exists_eq_succ_of_ne_zero c.utf8Size_pos.ne'
    rw [letters_cons, lead_of_not_ascii hc, position_replicate hne, hk, List.replicate_succ,
      List.cons_append, isWord_none hne, if_neg (by decide)]

theorem position_letters (s : List Char) :
    position "<!DOCTYPE".toList (letters s) = (beforeBlock? s).map (size ·.1) := by
  induction s with
  | nil => rfl
  | cons c s ih =>
    rw [position_cons (by decide) (by unfold Ascii; decide), ih, beforeBlock?]
    split
    · rfl
    · simp [Function.comp_def, Nat.add_comm]

/-! #### The end of a block -/

theorem blockEndFrom_quoted {a : Bool} {q : Char} (hq : q = '"' ∨ q = '\'') :
    blockEndFrom (p ++ c :: r) (size p) a (some q) =
      blockEndFrom (p ++ c :: r) (size (p ++ [c])) a (if c = q then none else some q) := by
  have hascii : q.toNat < 128 := by rcases hq with rfl | rfl <;> decide
  have hstep : ∀ i, (letters (p ++ c :: r))[i]? = some (lead c) →
      blockEndFrom (p ++ c :: r) i a (some q) =
        blockEndFrom (p ++ c :: r) (i + 1) a (if lead c = some q then none else some q) := by
    intro i hi
    obtain ⟨hlt, -⟩ := List.getElem?_eq_some_iff.1 hi
    rw [length_letters] at hlt
    rw [blockEndFrom, if_pos hlt, hi]
    rfl
  by_cases hc : c = q
  · subst hc
    rw [hstep _ (getElem?_letters_cons ..), lead_of_ascii hascii]
    simp [utf8Size_of_ascii hascii]
  · have hlead : lead c ≠ some q := fun h => hc (lead_eq_some_iff.1 h).2
    rw [if_neg hc]
    simp only [hlead, if_false] at hstep
    exact size_append_of_skips hstep

theorem ascii_comment : Ascii "<!--".toList := by unfold Ascii; decide

theorem blockEndFrom_of_ascii {a : Bool} (hc : c.toNat < 128) :
    blockEndFrom (p ++ c :: r) (size p) a none =
      if c = '"' ∨ c = '\'' then blockEndFrom (p ++ c :: r) (size (p ++ [c])) a (some c)
      else if c = '<' ∧ a then
        if (after? "<!--".toList (c :: r)).isSome then do
          match find "-->".toList (← drop? (p ++ c :: r) (size p + 4)) with
          | none => return none
          | some close => blockEndFrom (p ++ c :: r) (size p + 4 + close + 3) a none
        else blockEndFrom (p ++ c :: r) (size (p ++ [c])) a none
      else if c = '[' ∧ !a then blockEndFrom (p ++ c :: r) (size (p ++ [c])) true none
      else if c = ']' ∧ a then blockEndFrom (p ++ c :: r) (size (p ++ [c])) false none
      else if c = '>' ∧ !a then return some (size p)
      else blockEndFrom (p ++ c :: r) (size (p ++ [c])) a none := by
  have hsize : size (p ++ [c]) = size p + 1 := by simp [utf8Size_of_ascii hc]
  rw [blockEndFrom, if_pos (size_lt_append_cons ..), getElem?_letters_cons, hsize,
    lead_of_ascii hc]
  simp only [Option.bind_eq_bind, Option.bind_some, Option.some.injEq, span?_letters_size,
    beginsWith_letters ascii_comment]

theorem blockEndFrom_of_not_ascii {a : Bool} (hc : ¬ c.toNat < 128) :
    blockEndFrom (p ++ c :: r) (size p) a none =
      blockEndFrom (p ++ c :: r) (size (p ++ [c])) a none := by
  have hstep : ∀ i, (letters (p ++ c :: r))[i]? = some (lead c) →
      blockEndFrom (p ++ c :: r) i a none = blockEndFrom (p ++ c :: r) (i + 1) a none := by
    intro i hi
    obtain ⟨hlt, -⟩ := List.getElem?_eq_some_iff.1 hi
    rw [length_letters] at hlt
    rw [blockEndFrom, if_pos hlt, hi, lead_of_not_ascii hc]
    simp
  exact size_append_of_skips hstep

/-- A comment is passed with its end, which is looked for behind its beginning. -/
theorem blockEndFrom_comment (hs : after? "<!--".toList (c :: r) = some s) :
    blockEndFrom (p ++ c :: r) (size p) true none =
      match cut? "-->".toList s with
      | none => some none
      | some (body, _) => blockEndFrom (p ++ c :: r)
          (size (p ++ ("<!--".toList ++ body ++ "-->".toList))) true none := by
  have htext : c :: r = "<!--".toList ++ s := after?_eq_some_iff.1 hs
  have hopening : size "<!--".toList = 4 := size_of_ascii ascii_comment
  have hclosing : size "-->".toList = 3 := size_of_ascii (by unfold Ascii; decide)
  have hdrop : drop? (p ++ c :: r) (size p + 4) = some s :=
    drop?_eq_some (p := p ++ "<!--".toList) (by rw [htext, List.append_assoc])
      (by rw [size_append, hopening])
  obtain rfl : c = '<' := (List.cons.inj htext).1
  rw [blockEndFrom_of_ascii (by decide), if_neg (by decide), if_pos ⟨rfl, rfl⟩, hs, hdrop]
  simp only [Option.isSome_some, if_true, Option.bind_eq_bind, Option.bind_some, find]
  cases cut? "-->".toList s with
  | none => rfl
  | some q =>
    simp only [Option.map_some, size_append, hopening, hclosing, Nat.add_assoc]

theorem blockEndFrom_next {a : Bool} {q : Option Char}
    (ih : ∀ p, blockEndFrom (p ++ r) (size p) a q =
      some ((blockEnd? a q r).map fun q => size p + size q.1 - 1)) :
    blockEndFrom (p ++ c :: r) (size (p ++ [c])) a q =
      some (((blockEnd? a q r).map fun (block, rest) => (c :: block, rest)).map
        fun q => size p + size q.1 - 1) := by
  have := ih (p ++ [c])
  rw [List.append_assoc, List.singleton_append] at this
  rw [this, Option.map_map]
  congr 2
  funext q
  simp [Nat.add_assoc]

theorem blockEndFrom_append {a : Bool} {q : Option Char} (hq : ∀ x ∈ q, x = '"' ∨ x = '\'')
    (p : List Char) : blockEndFrom (p ++ r) (size p) a q =
      some ((blockEnd? a q r).map fun q => size p + size q.1 - 1) := by
  fun_induction blockEnd? a q r generalizing p with
  | case1 =>
    rw [blockEndFrom, if_neg (by simp)]
    rfl
  | case2 a c cs next q ih =>
    rw [blockEndFrom_quoted (hq q rfl)]
    exact blockEndFrom_next (ih _ _ (by split <;> simp [hq q rfl]))
  | case3 a c cs next h ih =>
    have hascii : c.toNat < 128 := by rcases h with rfl | rfl <;> decide
    rw [blockEndFrom_of_ascii hascii, if_pos h]
    exact blockEndFrom_next (ih _ _ (by simpa using h))
  | case4 a c cs next _ h ih =>
    obtain ⟨rfl, ha⟩ := h
    rw [blockEndFrom_of_ascii (by decide)]
    simp only [ha, Char.reduceEq]
    exact blockEndFrom_next (ih _ _ (by simp))
  | case5 a c cs next _ _ h ih =>
    obtain ⟨rfl, ha⟩ := h
    rw [blockEndFrom_of_ascii (by decide)]
    simp only [ha, Char.reduceEq]
    exact blockEndFrom_next (ih _ _ (by simp))
  | case6 a c cs _ _ _ h ih =>
    obtain ⟨rfl, ha⟩ := h
    rw [blockEndFrom_of_ascii (by decide)]
    simp [ha, utf8Size_of_ascii]
  | case7 a c cs next hquote hopen hclose hend h ih =>
    have hnext := blockEndFrom_next (p := p) (c := c) fun p => ih a none (by simp) p
    by_cases hascii : c.toNat < 128
    · rw [blockEndFrom_of_ascii hascii, if_neg hquote, if_neg hopen, if_neg hclose, if_neg hend]
      split
      · next hlt =>
        rw [dif_pos hlt.2] at h
        rw [h]
        exact hnext
      · exact hnext
    · rw [blockEndFrom_of_not_ascii hascii]
      exact hnext
  | case8 a c cs _ _ _ _ s h hcut ih =>
    split at h
    · next ha =>
      rw [ha, blockEndFrom_comment h, hcut]
      rfl
    · cases h
  | case9 a c cs _ _ _ _ s h body rest hcut ih ih' =>
    split at h
    · next ha =>
      have htext : c :: cs = "<!--".toList ++ body ++ "-->".toList ++ rest := by
        rw [after?_eq_some_iff.1 h, eq_of_cut? hcut]
        simp only [List.append_assoc]
      have := ih' (by simp) (p ++ ("<!--".toList ++ body ++ "-->".toList))
      rw [List.append_assoc, ← htext, ha] at this
      rw [ha, blockEndFrom_comment h, hcut]
      simp only [this, Option.map_map]
      congr 2
      funext q
      simp only [Function.comp_apply, size_append, Nat.add_assoc]
    · cases h

theorem block_ne_nil {a : Bool} {q : Option Char} {block rest : List Char}
    (h : blockEnd? a q r = some (block, rest)) : block ≠ [] := by
  fun_induction blockEnd? a q r with
  | case1 => cases h
  | case6 => cases h; simp
  | case8 => cases h
  | _ =>
    obtain ⟨⟨b, r⟩, -, he⟩ := Option.map_eq_some_iff.1 h
    cases he
    simp

theorem strip_eq (source : String) (s : List Char) :
    strip source s = some (stripBlock source s) := by
  unfold strip stripBlock
  rw [position_letters]
  cases hb : beforeBlock? s with
  | none => rfl
  | some q =>
    obtain ⟨before, rest⟩ := q
    obtain rfl := Parts.eq_of_beforeBlock? hb
    have hend := blockEndFrom_append (r := rest) (a := false) (q := none) (by simp) []
    rw [List.nil_append, size_nil] at hend
    simp only [Option.map_some, drop?_append, take?_append, hend, lineOf_append,
      Option.bind_eq_bind, Option.bind_some]
    cases he : blockEnd? false none rest with
    | none => rfl
    | some q =>
      obtain ⟨block, after⟩ := q
      obtain rfl := Parts.eq_of_blockEnd? he
      have hpos := size_pos (block_ne_nil he)
      have hsize : 0 + size block - 1 + 1 = size block := by omega
      simp only [Option.map_some, hsize, take?_append, drop?_append, Option.bind_some]
      rfl

end Block

/-! ### References to entities -/

def expand (source : String) (s : Bytes) : ExceptT Error Option (List Char) := do
  let (body, entities) ← ExceptT.mk (strip source s)
  let (out, settled) := settle entities passLimit body
  match firstReference? out with
  | none => return out
  | some (before, name) =>
    if !settled && (entities.lookup name).isSome then
      let line ← lineOf out (size before)
      throw (.parse source line ("entity '" ++ String.ofList name ++ "' expands recursively"))
    else throw (.undefinedEntity (String.ofList name))

theorem prefix_of_firstReference? {s before name : List Char}
    (h : firstReference? s = some (before, name)) : before <+: s := by
  fun_induction firstReference? s generalizing before with
  | case1 => cases h
  | case2 c cs n rest hr hb ih =>
    obtain ⟨⟨b, m⟩, hrest, he⟩ := Option.map_eq_some_iff.1 h
    cases he
    split at hr
    · obtain ⟨-, rfl⟩ := eq_of_reference? hr
      simpa using ih hrest
    · cases hr
  | case3 =>
    cases h
    exact List.nil_prefix
  | case4 c cs hr ih =>
    obtain ⟨⟨b, m⟩, hrest, he⟩ := Option.map_eq_some_iff.1 h
    cases he
    simpa using ih hrest

theorem run_bind_eq {ε α β : Type} {m : ExceptT ε Option α} {r : Except ε α}
    {f : α → ExceptT ε Option β} {g : α → Except ε β} (hm : m.run = some r)
    (hf : ∀ a, (f a).run = some (g a)) : (m >>= f).run = some (r >>= g) := by
  rw [ExceptT.run_bind, hm]
  cases r with
  | error e => rfl
  | ok a => exact hf a

theorem expand_eq (source : String) (s : List Char) :
    (expand source s).run = some (Markup.expand source s) := by
  refine run_bind_eq (strip_eq source s) fun ⟨body, entities⟩ => ?_
  dsimp only
  generalize settle entities passLimit body = q
  obtain ⟨out, settled⟩ := q
  cases hf : firstReference? out with
  | none =>
    rfl
  | some q =>
    obtain ⟨before, name⟩ := q
    obtain ⟨t, rfl⟩ := prefix_of_firstReference? hf
    dsimp only
    split
    · rw [lineOf_append]
      rfl
    · rfl

/-! ### References to characters -/

/-- A text decoded behind what has been decoded of it. -/
def decodeFrom (out : List Char) (rest : Bytes) : Option (List Char) :=
  match find ['&'] rest with
  | none => return out ++ rest
  | some amp => do
    let before ← take? rest amp
    let tail ← drop? rest amp
    match find [';'] tail with
    | none => (← drop? tail 1) |>.decodeFrom (out ++ before ++ ['&'])
    | some semi =>
      match referenced? (← slice? tail 1 semi) with
      | some c => (← drop? tail (semi + 1)) |>.decodeFrom (out ++ before ++ [c])
      | none => (← drop? tail 1) |>.decodeFrom (out ++ before ++ ['&'])
partial_fixpoint

def decode (s : Bytes) : Option (List Char) :=
  if s.contains '&' then decodeFrom [] s else return s

theorem decode_append {before : List Char} (h : '&' ∉ before) (rest : List Char) :
    Markup.decode (before ++ rest) = before ++ Markup.decode rest := by
  induction before with
  | nil => rfl
  | cons c before ih =>
    obtain ⟨hc, h⟩ := List.ne_and_not_mem_of_not_mem_cons h
    rw [List.cons_append, decode_cons hc.symm, ih h]
    rfl

theorem decode_of_not_mem {s : List Char} (h : '&' ∉ s) : Markup.decode s = s := by
  have := decode_append h []
  rwa [List.append_nil, Markup.decode, List.append_nil] at this

theorem cut?_eq_none_iff {q : Char} {s : List Char} : cut? [q] s = none ↔ q ∉ s := by
  constructor
  · intro h hq
    obtain ⟨a, b, rfl, ha⟩ := List.eq_append_cons_of_mem hq
    rw [cut?_singleton ha] at h
    cases h
  · intro hq
    rw [Option.eq_none_iff_forall_ne_some]
    rintro ⟨a, b⟩ h
    exact hq (by simp [eq_of_cut? h])

theorem decodeFrom_end {rest : List Char} (h : '&' ∉ rest) (out : List Char) :
    decodeFrom out rest = some (out ++ rest) := by
  rw [decodeFrom, find, cut?_eq_none_iff.2 h]
  rfl

/-- One turn: the reference at the first `&` is passed, or the `&` alone. -/
theorem decodeFrom_amp {before : List Char} (h : '&' ∉ before) (out tail : List Char) :
    decodeFrom out (before ++ '&' :: tail) =
      match cut? [';'] tail with
      | none => decodeFrom (out ++ before ++ ['&']) tail
      | some (name, behind) =>
        match referenced? name with
        | some c => decodeFrom (out ++ before ++ [c]) behind
        | none => decodeFrom (out ++ before ++ ['&']) tail := by
  have hamp : '&'.utf8Size = 1 := utf8Size_of_ascii (by decide)
  have hdrop : drop? ('&' :: tail) 1 = some tail :=
    drop?_eq_some (p := ['&']) rfl (by simp [hamp])
  have hfind : find [';'] ('&' :: tail) =
      (cut? [';'] tail).map fun (name, _) => size ('&' :: name) := by
    simp [find, cut?, after?, Function.comp_def]
  rw [decodeFrom, find, cut?_singleton h]
  simp only [Option.map_some, take?_append, drop?_append, Option.bind_eq_bind, Option.bind_some,
    hfind, hdrop]
  cases hsemi : cut? [';'] tail with
  | none => rfl
  | some q =>
    obtain ⟨name, behind⟩ := q
    obtain rfl : tail = name ++ ';' :: behind := by simpa using eq_of_cut? hsemi
    have hslice : slice? ('&' :: (name ++ ';' :: behind)) 1 (size ('&' :: name)) = some name :=
      slice?_eq_some (p := ['&']) rfl (by simp [hamp]) rfl
    have hbehind : drop? ('&' :: (name ++ ';' :: behind)) (size ('&' :: name) + 1) = some behind :=
      drop?_eq_some (p := '&' :: (name ++ [';'])) (by simp)
        (by simp [utf8Size_of_ascii, Nat.add_assoc])
    simp only [Option.map_some, hslice, hbehind, Option.bind_some]

theorem decodeFrom_eq (out rest : List Char) :
    decodeFrom out rest = some (out ++ Markup.decode rest) := by
  induction hl : rest.length using Nat.strong_induction_on generalizing out rest with
  | _ n ih =>
    subst hl
    by_cases hmem : '&' ∈ rest
    · obtain ⟨before, tail, rfl, hbefore⟩ := List.eq_append_cons_of_mem hmem
      have hlen : tail.length < (before ++ '&' :: tail).length := by simp; omega
      rw [decodeFrom_amp hbefore, decode_append hbefore]
      cases hsemi : cut? [';'] tail with
      | none =>
        rw [decode_amp_none (by simp [hsemi])]
        simpa using ih _ hlen (out ++ before ++ ['&']) tail rfl
      | some q =>
        obtain ⟨name, behind⟩ := q
        have hbehind := length_of_cut? hsemi
        dsimp only
        cases hname : referenced? name with
        | some c =>
          rw [decode_amp_some hsemi hname]
          simpa using ih behind.length (by omega) (out ++ before ++ [c]) behind rfl
        | none =>
          rw [decode_amp_none (by simp [hsemi, hname])]
          simpa using ih _ hlen (out ++ before ++ ['&']) tail rfl
    · rw [decodeFrom_end hmem, decode_of_not_mem hmem]

theorem decode_eq (s : List Char) : decode s = some (Markup.decode s) := by
  unfold decode
  split
  · simpa using decodeFrom_eq [] s
  · next h =>
    rw [decode_of_not_mem (by simpa using h)]
    rfl

end Progression.Bytes
