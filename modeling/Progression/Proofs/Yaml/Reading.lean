import Progression.Proofs.Yaml.Rendering
import Progression.Yaml.Reader

/-!
Documents from their own text. The tokens of a value are read as that value, with anything behind
them that does not go on with it.
-/

namespace Progression.Yaml

open Reading

variable {v : Yaml} {items : List Yaml} {es : List (Yaml × Yaml)} {ts ts' : List Token} {n : Nat}

/-- A value that is read from its tokens behind a key; no item may follow a sequence. -/
def IsRead (v : Yaml) : Prop :=
  ∀ (n : Nat) (ts : List Token), 4 * (tokensOf v).length + 3 ≤ n → ts.head? ≠ some .blockEntry →
    (node n true true).run { tokens := tokensOf v ++ ts } = some (v, { tokens := ts })

theorem node_scalar (n : Nat) (block compact : Bool) (style : Style) (text : String)
    (ts : List Token) : (node (n + 2) block compact).run { tokens := .scalar style text :: ts } =
      some (scalar style none text, { tokens := ts }) := rfl

theorem isRead_scalar (hv : IsScalar v) : IsRead v := by
  obtain ⟨style, text, rfl, -⟩ := hv
  intro n ts hn _
  obtain ⟨n, rfl⟩ : ∃ m, n = m + 2 := ⟨n - 2, by simp [tokensOf] at hn; omega⟩
  exact node_scalar n true true style text ts

/-! ### Sequences -/

theorem compactItems_cons {style : Style} {text : String}
    (h : (compactItems (n + 3)).run { tokens := ts } = some (items, { tokens := ts' })) :
    (compactItems (n + 4)).run { tokens := .blockEntry :: .scalar style text :: ts } =
      some (scalar style none text :: items, { tokens := ts' }) := by
  show ((compactItems (n + 3)).run { tokens := ts }).bind _ = _
  rw [h]
  rfl

/-- The items of a sequence, up to something else. -/
theorem compactItems_itemTokens (hitems : ∀ v ∈ items, IsScalar v)
    (hn : 4 * (itemTokens items).length + 1 ≤ n) (hts : ts.head? ≠ some .blockEntry) :
    (compactItems n).run { tokens := itemTokens items ++ ts } = some (items, { tokens := ts }) := by
  induction items generalizing n with
  | nil =>
    obtain ⟨n, rfl⟩ : ∃ m, n = m + 1 := ⟨n - 1, by omega⟩
    have hskip : (skipIf .blockEntry).run { tokens := ts } = some (false, { tokens := ts }) := by
      cases ts with
      | nil => rfl
      | cons t ts =>
        have ht : [Token.blockEntry].contains t = false := by simpa using hts
        show (if [Token.blockEntry].contains t then _ else _ : Reading Bool).run _ = _
        rw [ht]
        rfl
    show ((skipIf .blockEntry).run { tokens := ts }).bind _ = _
    rw [hskip]
    rfl
  | cons v items ih =>
    obtain ⟨⟨style, text, rfl, -⟩, hothers⟩ := List.forall_mem_cons.1 hitems
    simp only [itemTokens, tokensOf, List.length_cons, List.length_append] at hn
    obtain ⟨n, rfl⟩ : ∃ m, n = m + 4 := ⟨n - 4, by omega⟩
    exact compactItems_cons (ih hothers (by omega))

theorem isRead_sequence (hne : items ≠ []) (hitems : ∀ v ∈ items, IsScalar v) :
    IsRead (sequence items) := by
  intro n ts hn hts
  rw [tokensOf] at hn
  obtain ⟨n, rfl⟩ : ∃ m, n = m + 2 := ⟨n - 2, by omega⟩
  have hread := compactItems_itemTokens (n := n) hitems (by omega) hts
  obtain ⟨v, items, rfl⟩ := List.exists_cons_of_ne_nil hne
  rw [itemTokens, List.cons_append] at hread
  rw [tokensOf, itemTokens, List.cons_append]
  show (((compactItems n).run
    { tokens := .blockEntry :: (tokensOf v ++ itemTokens items ++ ts) }).bind _).bind _ = _
  rw [hread]
  rfl

/-! ### Mappings -/

theorem blockEntries_cons {name : String}
    (hvalue : (node (n + 3) true true).run { tokens := ts } = some (v, { tokens := ts' }))
    (hstop : ∀ t ∈ ts.head?, t ∉ [Token.key, .value, .blockEnd])
    (hothers : (blockEntries (n + 4)).run { tokens := ts' } = some (es, { tokens := ts'' })) :
    (blockEntries (n + 5)).run { tokens := .key :: .scalar .plain name :: .value :: ts } =
      some ((plain name, v) :: es, { tokens := ts'' }) := by
  have hunless : (nodeUnless (n + 4) [.key, .value, .blockEnd] true true).run { tokens := ts } =
      some (v, { tokens := ts' }) := by
    cases ts with
    | nil => exact hvalue
    | cons t ts =>
      have ht : [Token.key, .value, .blockEnd].contains t = false := by
        simpa using hstop t rfl
      rw [← hvalue]
      show ((if [Token.key, .value, .blockEnd].contains t then _ else _ : Reading Yaml).run _) = _
      rw [ht]
      rfl
  show ((nodeUnless (n + 4) [.key, .value, .blockEnd] true true).run { tokens := ts }).bind _ = _
  rw [hunless]
  show ((blockEntries (n + 4)).run { tokens := ts' }).bind _ = _
  rw [hothers]
  rfl

theorem exists_tokensOf_eq_cons (hv : Writable v) :
    ∃ t ts, tokensOf v = t :: ts ∧ t ∉ [Token.key, .value, .blockEnd] := by
  cases hv with
  | scalar h =>
    obtain ⟨style, text, rfl, -⟩ := h
    exact ⟨_, _, by rw [tokensOf], by simp⟩
  | sequence hne _ =>
    obtain ⟨v, items, rfl⟩ := List.exists_cons_of_ne_nil hne
    exact ⟨_, _, by rw [tokensOf, itemTokens], by simp⟩
  | mapping => exact ⟨_, _, by rw [tokensOf], by simp⟩

theorem head?_entryTokens (es : List (Yaml × Yaml)) (ts : List Token) :
    (entryTokens es ++ .blockEnd :: ts).head? ≠ some .blockEntry := by
  cases es with
  | nil => simp [entryTokens]
  | cons e es => simp [entryTokens]

/-- The entries of a mapping, up to its end. -/
theorem blockEntries_entryTokens (hkeys : ∀ e ∈ es, IsKey e.1) (hvalues : ∀ e ∈ es, Writable e.2)
    (hread : ∀ e ∈ es, IsRead e.2) (hn : 4 * (entryTokens es).length + 1 ≤ n) (ts : List Token) :
    (blockEntries n).run { tokens := entryTokens es ++ .blockEnd :: ts } =
      some (es, { tokens := ts }) := by
  induction es generalizing n with
  | nil =>
    obtain ⟨n, rfl⟩ : ∃ m, n = m + 1 := ⟨n - 1, by omega⟩
    rfl
  | cons e es ih =>
    obtain ⟨key, v⟩ := e
    obtain ⟨⟨name, rfl, -⟩, hkeys'⟩ := List.forall_mem_cons.1 hkeys
    obtain ⟨hv, hvalues'⟩ := List.forall_mem_cons.1 hvalues
    obtain ⟨hvread, hread'⟩ := List.forall_mem_cons.1 hread
    rw [entryTokens_cons] at hn ⊢
    simp only [List.length_cons, List.length_append] at hn
    obtain ⟨n, rfl⟩ : ∃ m, n = m + 5 := ⟨n - 5, by omega⟩
    obtain ⟨t, rest, htokens, hstop⟩ := exists_tokensOf_eq_cons hv
    have hvalue := hvread (n + 3) (entryTokens es ++ .blockEnd :: ts) (by dsimp only; omega)
      (head?_entryTokens es ts)
    have hothers := ih hkeys' hvalues' hread' (n := n + 4) (by omega)
    simp only [List.cons_append, List.append_assoc]
    refine blockEntries_cons hvalue ?_ hothers
    rw [htokens]
    rintro t ⟨⟩
    exact hstop

theorem node_mapping (hkeys : ∀ e ∈ es, IsKey e.1) (hvalues : ∀ e ∈ es, Writable e.2)
    (hread : ∀ e ∈ es, IsRead e.2) (hn : 4 * (tokensOf (mapping es)).length ≤ n) (compact : Bool)
    (ts : List Token) : (node n true compact).run { tokens := tokensOf (mapping es) ++ ts } =
      some (mapping es, { tokens := ts }) := by
  rw [tokensOf] at hn ⊢
  simp only [List.length_cons, List.length_append] at hn
  obtain ⟨n, rfl⟩ : ∃ m, n = m + 2 := ⟨n - 2, by omega⟩
  have hentries := blockEntries_entryTokens (n := n) hkeys hvalues hread (by omega) ts
  rw [List.cons_append, List.append_assoc, List.singleton_append]
  show (((blockEntries n).run { tokens := entryTokens es ++ .blockEnd :: ts }).bind _).bind _ = _
  rw [hentries]
  rfl

theorem isRead_of_writable (hv : Writable v) : IsRead v := by
  induction hv with
  | scalar h => exact isRead_scalar h
  | sequence hne h => exact isRead_sequence hne h
  | mapping _ hkeys hvalues ih =>
    exact fun n ts hn _ => node_mapping hkeys hvalues ih (by omega) true ts

/-! ### Whole documents -/

/-- A document of mappings, sequences and scalars is read back from its text. -/
theorem read?_render (h : Writable (mapping es)) :
    read? (render (mapping es)) = some (mapping es) := by
  obtain ⟨hne, hkeys, hvalues⟩ := writable_mapping_iff.1 h
  have hroot := node_mapping (n := 4 * (tokensOf (mapping es)).length + 4) hkeys hvalues
    (fun e he => isRead_of_writable (hvalues e he)) (by omega) false []
  rw [List.append_nil] at hroot
  have hdocument : (document (4 * (tokensOf (mapping es)).length + 4)).run
      { tokens := tokensOf (mapping es) } = some (mapping es, { tokens := [] }) := by
    rw [tokensOf] at hroot ⊢
    show ((node _ true false).run _).bind _ = _
    rw [hroot]
    rfl
  rw [read?, tokens?_render h, Option.bind_eq_bind, Option.bind_some, hdocument]
  rfl

end Progression.Yaml
