import Progression.Proofs.Yaml.Scanning

/-!
Tokens of documents that have been written: mappings under names, with sequences of scalars among
their values, nothing of it empty (`Writable`).
-/

namespace Progression.Yaml

/-! ### Documents and their tokens -/

/-- A key that is short enough to be told from its colon. -/
def IsKey (key : Yaml) : Prop :=
  ∃ name : String, key = plain name ∧ IsName name.toList ∧ name.toList.length ≤ 1024

/-- A scalar that is read back. -/
def IsScalar (v : Yaml) : Prop := ∃ style text, v = scalar style none text ∧ Fits style text.toList

/-- A value that is read back from its text. -/
inductive Writable : Yaml → Prop
  | scalar {v : Yaml} : IsScalar v → Writable v
  | sequence {items : List Yaml} : items ≠ [] → (∀ v ∈ items, IsScalar v) →
      Writable (sequence items)
  | mapping {entries : List (Yaml × Yaml)} : entries ≠ [] → (∀ e ∈ entries, IsKey e.1) →
      (∀ e ∈ entries, Writable e.2) → Writable (mapping entries)

mutual

/-- The tokens of a value; those of a sequence are only its items. -/
def tokensOf : Yaml → List Token
  | scalar style _ text => [.scalar style text]
  | sequence items => itemTokens items
  | mapping entries => .blockMapping :: (entryTokens entries ++ [.blockEnd])
  | inner => []

def itemTokens : List Yaml → List Token
  | [] => []
  | v :: vs => .blockEntry :: (tokensOf v ++ itemTokens vs)

def entryTokens : List (Yaml × Yaml) → List Token
  | [] => []
  | (key, v) :: es => .key :: (tokensOf key ++ .value :: (tokensOf v ++ entryTokens es))

end

section

variable {items : List Yaml} {es : List (Yaml × Yaml)}

theorem writable_mapping_iff : Writable (mapping es) ↔
    es ≠ [] ∧ (∀ e ∈ es, IsKey e.1) ∧ ∀ e ∈ es, Writable e.2 := by
  refine ⟨fun h => ?_, fun ⟨hne, hkeys, hvalues⟩ => .mapping hne hkeys hvalues⟩
  cases h with
  | scalar h => obtain ⟨_, _, ⟨⟩, _⟩ := h
  | mapping hne hkeys hvalues => exact ⟨hne, hkeys, hvalues⟩

theorem entryTokens_cons (name : String) (v : Yaml) (es : List (Yaml × Yaml)) :
    entryTokens ((plain name, v) :: es) =
      .key :: .scalar .plain name :: .value :: (tokensOf v ++ entryTokens es) := by
  simp [entryTokens, tokensOf, plain]

theorem valueText_sequence (h : items ≠ []) (column key : Nat) :
    valueText column key (sequence items) = '\n' :: itemsText key items := by
  cases items with
  | nil => exact absurd rfl h
  | cons v items => rfl

theorem valueText_mapping (h : es ≠ []) (column key : Nat) :
    valueText column key (mapping es) = '\n' :: entriesText column es := by
  cases es with
  | nil => exact absurd rfl h
  | cons e es => rfl

theorem render_mapping (h : es ≠ []) : render (mapping es) = String.ofList (entriesText 0 es) := by
  cases es with
  | nil => exact absurd rfl h
  | cons e es => rfl

end

namespace Scanner

variable {s : Scanner} {c k : Nat} {t text : List Char} {stack outer : List Nat} {ts : List Token}

/-- The scanner comes over a text in a block to what follows it. -/
def Passes (c : Nat) (outer : List Nat) (text : List Char) (ts : List Token) (k : Nat)
    (t : List Char) : Prop :=
  ∃ k₀ t₀, text ++ (spaces k ++ t) = spaces k₀ ++ t₀ ∧ Follows k₀ t₀ ∧ k₀ ≤ c ∧
    ∀ s, Ready s k₀ t₀ (c :: outer) → ∃ s', Leads s ts s' ∧ Ready s' k t (c :: outer)

theorem passes_nil (hk : k ≤ c) (ht : Follows k t) : Passes c outer [] [] k t :=
  ⟨k, t, rfl, ht, hk, fun s hs => ⟨s, .refl s, hs⟩⟩

/-- A value that is read where one is awaited. -/
def IsScanned (v : Yaml) : Prop :=
  ∀ {s : Scanner} {c k : Nat} {t : List Char} {stack : List Nat},
    Awaits s c (valueText (c + 2) c v ++ (spaces k ++ t)) stack → k ≤ c → Follows k t →
    ∃ s', Leads s (tokensOf v) s' ∧ Ready s' k t (c :: stack)

theorem isScanned_scalar {v : Yaml} (hv : IsScalar v) : IsScanned v := by
  obtain ⟨style, text, rfl, hfits⟩ := hv
  intro s c k t stack hs hk ht
  exact Awaits.leads_scalar hfits hs hk ht

/-- Items behind their hyphens. -/
theorem passes_items (outer : List Nat) (items : List Yaml) (hitems : ∀ v ∈ items, IsScalar v)
    (hk : k ≤ c) (ht : Follows k t) :
    Passes c outer (itemsText c items) (itemTokens items) k t := by
  induction items with
  | nil => exact passes_nil hk ht
  | cons v items ih =>
    obtain ⟨⟨style, text, rfl, hfits⟩, hothers⟩ := List.forall_mem_cons.1 hitems
    obtain ⟨k₁, t₁, heq, ht₁, hk₁, hpasses⟩ := ih hothers
    refine ⟨c, '-' :: ' ' :: (endLine (scalarText (c + 2) style text) ++ (spaces k₁ ++ t₁)), ?_,
      ⟨by simp [isNamePart], nofun⟩, Nat.le_refl _, fun s hs => ?_⟩
    · rw [itemsText, itemText, ← heq]
      simp
    · obtain ⟨s₁, hhyphen, hs₁⟩ := hs.leads_hyphen
      obtain ⟨s₂, hscalar, hs₂⟩ := hs₁.leads_scalar hfits hk₁ ht₁
      obtain ⟨s₃, hothers, hs₃⟩ := hpasses s₂ hs₂
      exact ⟨s₃, hhyphen.trans (hscalar.trans hothers), hs₃⟩

theorem isScanned_sequence {items : List Yaml} (hne : items ≠ [])
    (hitems : ∀ v ∈ items, IsScalar v) : IsScanned (sequence items) := by
  intro s c k t stack hs hk ht
  obtain ⟨k₀, t₀, heq, ht₀, hk₀, hpasses⟩ := passes_items stack items hitems hk ht
  rw [valueText_sequence hne, List.cons_append, heq] at hs
  obtain ⟨s₁, hline, hs₁⟩ := hs.leads_line ht₀
  obtain ⟨s₂, hothers, hs₂⟩ := hpasses s₁ hs₁
  exact ⟨s₂, hline.trans hothers, hs₂⟩

theorem atBlank_valueText (column key : Nat) (v : Yaml) (r : List Char) :
    atBlank (valueText column key v ++ r) = true := by
  cases v with
  | scalar => rfl
  | sequence items => cases items <;> rfl
  | mapping entries => cases entries <;> rfl
  | inner => rfl

section Entries

variable {name : String} {v : Yaml} {mapping : Bool}

/-- The text of an entry behind its column. -/
def entryText (c : Nat) (name : String) (v : Yaml) (r : List Char) : List Char :=
  name.toList ++ ':' :: (valueText (c + 2) c v ++ r)

theorem entriesText_cons (c : Nat) (name : String) (v : Yaml) (es : List (Yaml × Yaml))
    (r : List Char) : entriesText c ((plain name, v) :: es) ++ r =
      spaces c ++ entryText c name v (entriesText c es ++ r) := by
  simp [plain, entriesText, scalarText, entryText]

theorem follows_entryText (hname : IsName name.toList) (r : List Char) :
    Follows c (entryText c name v r) := by
  obtain ⟨a, name', hcons⟩ := List.exists_cons_of_ne_nil hname.ne_nil
  refine ⟨fun b hb => hname.part b ?_, fun h => ?_⟩
  · rw [entryText, hcons] at hb
    cases hb
    simp [hcons]
  · simp [entryText, hcons] at h

theorem Ready.leads_entry (hs : Ready s c (entryText c name v (spaces k ++ t)) stack)
    (hname : IsName name.toList) (hlength : name.toList.length ≤ 1024) (hv : IsScanned v)
    (hopens : Opens c stack outer mapping) (hk : k ≤ c) (ht : Follows k t) :
    ∃ s', Leads s ((if mapping then [.blockMapping] else []) ++
      (.key :: .scalar .plain name :: .value :: tokensOf v)) s' ∧ Ready s' k t (c :: outer) := by
  obtain ⟨s₁, hkey, hs₁⟩ := hs.leads_key hname hlength (atBlank_valueText _ _ _ _) hopens
  obtain ⟨s₂, hvalue, hs₂⟩ := hv hs₁ hk ht
  refine ⟨s₂, ?_, hs₂⟩
  simpa using hkey.trans hvalue

/-- Entries of a block that is open. -/
theorem passes_entries (outer : List Nat) (es : List (Yaml × Yaml)) (hkeys : ∀ e ∈ es, IsKey e.1)
    (hvalues : ∀ e ∈ es, IsScanned e.2) (hk : k ≤ c) (ht : Follows k t) :
    Passes c outer (entriesText c es) (entryTokens es) k t := by
  induction es with
  | nil => exact passes_nil hk ht
  | cons e es ih =>
    obtain ⟨key, v⟩ := e
    obtain ⟨⟨name, rfl, hname, hlength⟩, hkeys'⟩ := List.forall_mem_cons.1 hkeys
    obtain ⟨hv, hvalues'⟩ := List.forall_mem_cons.1 hvalues
    obtain ⟨k₁, t₁, heq, ht₁, hk₁, hpasses⟩ := ih hkeys' hvalues'
    refine ⟨c, _, by rw [entriesText_cons, heq], follows_entryText hname _, Nat.le_refl _,
      fun s hs => ?_⟩
    have hopens : Opens c (c :: outer) outer false := rfl
    obtain ⟨s₁, hentry, hs₁⟩ := hs.leads_entry hname hlength hv hopens hk₁ ht₁
    obtain ⟨s₂, hothers, hs₂⟩ := hpasses s₁ hs₁
    refine ⟨s₂, ?_, hs₂⟩
    rw [entryTokens_cons]
    simpa using hentry.trans hothers

/-- A mapping, but for the end of its block. -/
theorem exists_leads_mapping (outer : List Nat) {es : List (Yaml × Yaml)} (hne : es ≠ [])
    (hkeys : ∀ e ∈ es, IsKey e.1) (hvalues : ∀ e ∈ es, IsScanned e.2)
    (houter : ∀ d ∈ outer.head?, d < c) (hk : k ≤ c) (ht : Follows k t) :
    ∃ t₀, entriesText c es ++ (spaces k ++ t) = spaces c ++ t₀ ∧ Follows c t₀ ∧
      ∀ s, Ready s c t₀ outer →
        ∃ s', Leads s (.blockMapping :: entryTokens es) s' ∧ Ready s' k t (c :: outer) := by
  obtain ⟨⟨key, v⟩, es, rfl⟩ := List.exists_cons_of_ne_nil hne
  obtain ⟨⟨name, rfl, hname, hlength⟩, hkeys'⟩ := List.forall_mem_cons.1 hkeys
  obtain ⟨hv, hvalues'⟩ := List.forall_mem_cons.1 hvalues
  obtain ⟨k₁, t₁, heq, ht₁, hk₁, hpasses⟩ := passes_entries outer es hkeys' hvalues' hk ht
  refine ⟨_, by rw [entriesText_cons, heq], follows_entryText hname _, fun s hs => ?_⟩
  have hopens : Opens c outer outer true := ⟨rfl, houter⟩
  obtain ⟨s₁, hentry, hs₁⟩ := hs.leads_entry hname hlength hv hopens hk₁ ht₁
  obtain ⟨s₂, hothers, hs₂⟩ := hpasses s₁ hs₁
  refine ⟨s₂, ?_, hs₂⟩
  rw [entryTokens_cons]
  simpa using hentry.trans hothers

theorem isScanned_mapping {es : List (Yaml × Yaml)} (hne : es ≠ []) (hkeys : ∀ e ∈ es, IsKey e.1)
    (hvalues : ∀ e ∈ es, IsScanned e.2) : IsScanned (Yaml.mapping es) := by
  intro s c k t stack hs hk ht
  have houter : ∀ d ∈ (c :: stack).head?, d < c + 2 := by
    rintro d ⟨⟩
    omega
  obtain ⟨t₀, heq, ht₀, hmapping⟩ :=
    exists_leads_mapping (c :: stack) hne hkeys hvalues houter (Nat.le_add_right_of_le hk) ht
  rw [valueText_mapping hne, List.cons_append, heq] at hs
  obtain ⟨s₁, hline, hs₁⟩ := hs.leads_line ht₀
  obtain ⟨s₂, hentries, hs₂⟩ := hmapping s₁ hs₁
  obtain ⟨s₃, hend, hs₃⟩ := hs₂.leads_blockEnd (by omega)
  exact ⟨s₃, hline.trans (hentries.trans hend), hs₃⟩

end Entries

theorem isScanned_of_writable {v : Yaml} (hv : Writable v) : IsScanned v := by
  induction hv with
  | scalar h => exact isScanned_scalar h
  | sequence hne h => exact isScanned_sequence hne h
  | mapping hne hkeys _ ih => exact isScanned_mapping hne hkeys ih

/-- At the end of the text the outermost block ends. -/
theorem Ready.gives_end (h : Ready s 0 [] [0]) : s.Gives (s.tokens ++ [.blockEnd]) := by
  obtain ⟨hindent, hindents⟩ := h.of_cons
  have hunroll : s.unrollTo s.mark.column = s := by
    refine h.toWithin.unrollTo fun d hd => ?_
    cases hd
    exact Nat.zero_le _
  have hclose : closeBlocks (-1) s.indent s.indents s.pieces =
      (-1, [], .token .blockEnd :: s.pieces) := by
    rw [hindent, hindents]
    rfl
  have hfinish : s.finish = some (s.tokens ++ [.blockEnd]) := by
    rw [finish, if_pos h.column, unrollTo, h.inFlow, hclose]
    simp [dropKey, h.keys, Scanner.tokens, resolve]
  rintro (_ | n) hn
  · cases hn
  · rw [run_succ, h.toNext, h.dropStale]
    dsimp only
    rw [hunroll, h.rest]
    exact hfinish

end Scanner

/-! ### Characters -/

section Characters

variable {x : List Char} {column key : Nat}

/-- A text of characters that are allowed as they are. -/
def Printable (x : List Char) : Prop := ∀ a ∈ x, isPrintable a = true

theorem printable_cons {a : Char} : Printable (a :: x) ↔ isPrintable a = true ∧ Printable x :=
  List.forall_mem_cons

theorem printable_append {x y : List Char} : Printable (x ++ y) ↔ Printable x ∧ Printable y :=
  List.forall_mem_append

theorem printable_spaces (n : Nat) : Printable (spaces n) := by
  intro a ha
  rw [List.eq_of_mem_replicate ha]
  decide

theorem printable_endLine (h : Printable x) : Printable (endLine x) := by
  unfold endLine
  split
  · exact h
  · exact printable_append.2 ⟨h, by simp [Printable, isPrintable]⟩

theorem printable_singleBody (h : Printable x) (afterBreak : Bool) :
    Printable (singleBody column afterBreak x) := by
  induction x generalizing afterBreak with
  | nil => exact h
  | cons a x ih =>
    obtain ⟨ha, hx⟩ := printable_cons.1 h
    have hspaces : Printable (if afterBreak then spaces column else []) := by
      split
      · exact printable_spaces column
      · exact nofun
    have hself : Printable (if a = '\'' then ['\'', '\''] else [a]) := by
      split
      · simp [Printable, isPrintable]
      · simpa [Printable] using ha
    unfold singleBody
    split
    · exact printable_cons.2 ⟨ha, ih hx true⟩
    · exact printable_append.2 ⟨printable_append.2 ⟨hspaces, hself⟩, ih hx false⟩

theorem printable_blockLines (h : Printable x) (afterBreak : Bool) :
    Printable (blockLines column afterBreak x) := by
  induction x generalizing afterBreak with
  | nil => exact h
  | cons a x ih =>
    obtain ⟨ha, hx⟩ := printable_cons.1 h
    have hspaces : Printable (if afterBreak then spaces column else []) := by
      split
      · exact printable_spaces column
      · exact nofun
    unfold blockLines
    split
    · exact printable_cons.2 ⟨ha, ih hx true⟩
    · exact printable_append.2 ⟨hspaces, printable_cons.2 ⟨ha, ih hx false⟩⟩

theorem printable_blockSigns (x : List Char) : Printable (blockSigns x) := by
  unfold blockSigns
  cases x.head?.any fun c => isSpace c || isBreak c <;>
    rcases x.reverse with _ | ⟨a, _ | ⟨b, _⟩⟩ <;> dsimp only
  case false.nil | true.nil => simp [Printable, isPrintable]
  case false.cons.nil | true.cons.nil => cases isBreak a <;> simp [Printable, isPrintable]
  all_goals cases isBreak a <;> cases isBreak b <;> simp [Printable, isPrintable]

theorem printable_hexDigits (width n : Nat) : Printable (hexDigits width n) := by
  have hdigit : ∀ d < 16, isPrintable (hexDigit d) = true := by decide
  induction width generalizing n with
  | zero => exact nofun
  | succ width ih =>
    refine printable_append.2 ⟨ih (n / 16), ?_⟩
    simpa [Printable] using hdigit (n % 16) (Nat.mod_lt _ (by decide))

theorem printable_doubleChar (c : Char) : Printable (doubleChar c) := by
  have hslash : isPrintable '\\' = true := by decide
  unfold doubleChar
  split
  · next h =>
    simp only [Bool.and_eq_true] at h
    simpa [Printable] using h.1.1.1
  · split
    · next l hl =>
      have hletter : isPrintable l = true := by
        unfold escapeLetter? at hl
        split at hl <;> cases hl <;> decide
      simp [Printable, hslash, hletter]
    · dsimp only
      split
      · exact printable_cons.2 ⟨hslash, printable_cons.2 ⟨by decide, printable_hexDigits 2 _⟩⟩
      · split
        · exact printable_cons.2 ⟨hslash, printable_cons.2 ⟨by decide, printable_hexDigits 4 _⟩⟩
        · exact printable_cons.2 ⟨hslash, printable_cons.2 ⟨by decide, printable_hexDigits 8 _⟩⟩

theorem printable_scalarText {style : Style} {text : String} (h : Fits style text.toList)
    (column : Nat) : Printable (scalarText column style text) := by
  have hquote : Printable ['\''] ∧ Printable ['"'] := by simp [Printable, isPrintable]
  cases style with
  | plain => exact h.printable
  | single =>
    exact printable_append.2
      ⟨printable_cons.2 ⟨by decide, printable_singleBody h.1 false⟩, hquote.1⟩
  | double =>
    refine printable_append.2 ⟨printable_cons.2 ⟨by decide, fun a ha => ?_⟩, hquote.2⟩
    obtain ⟨c, -, ha⟩ := List.mem_flatMap.1 ha
    exact printable_doubleChar c a ha
  | literal =>
    exact printable_append.2 ⟨printable_cons.2 ⟨by decide, printable_blockSigns _⟩,
      printable_cons.2 ⟨by decide, printable_blockLines h.2 true⟩⟩
  | folded => cases h

theorem printable_itemsText {items : List Yaml} (h : ∀ v ∈ items, IsScalar v) (column : Nat) :
    Printable (itemsText column items) := by
  induction items with
  | nil => exact nofun
  | cons v items ih =>
    obtain ⟨⟨style, text, rfl, hfits⟩, hothers⟩ := List.forall_mem_cons.1 h
    have hitem : Printable (itemText column (scalar style none text)) :=
      printable_cons.2 ⟨by decide, printable_endLine (printable_scalarText hfits _)⟩
    exact printable_append.2 ⟨printable_append.2 ⟨printable_spaces column,
      printable_cons.2 ⟨by decide, hitem⟩⟩, ih hothers⟩

theorem printable_entriesText {es : List (Yaml × Yaml)} (hkeys : ∀ e ∈ es, IsKey e.1)
    (hvalues : ∀ e ∈ es, ∀ column key, Printable (valueText column key e.2)) (column : Nat) :
    Printable (entriesText column es) := by
  induction es with
  | nil => exact nofun
  | cons e es ih =>
    obtain ⟨key, v⟩ := e
    obtain ⟨⟨name, rfl, hname, -⟩, hkeys'⟩ := List.forall_mem_cons.1 hkeys
    obtain ⟨hv, hvalues'⟩ := List.forall_mem_cons.1 hvalues
    exact printable_append.2 ⟨printable_append.2 ⟨printable_append.2 ⟨printable_spaces column,
      hname.plainForm.printable⟩, printable_cons.2 ⟨by decide, hv _ _⟩⟩, ih hkeys' hvalues'⟩

theorem printable_valueText {v : Yaml} (h : Writable v) (column key : Nat) :
    Printable (valueText column key v) := by
  induction h generalizing column key with
  | scalar h =>
    obtain ⟨style, text, rfl, hfits⟩ := h
    exact printable_cons.2 ⟨by decide, printable_endLine (printable_scalarText hfits column)⟩
  | @sequence items hne h =>
    rw [valueText_sequence hne]
    exact printable_cons.2 ⟨by decide, printable_itemsText h key⟩
  | @mapping es hne hkeys _ ih =>
    rw [valueText_mapping hne]
    exact printable_cons.2 ⟨by decide, printable_entriesText hkeys ih column⟩

end Characters

/-! ### Whole documents -/

theorem isAllowed_of_isPrintable {a : Char} (h : isPrintable a = true) : isAllowed a = true := by
  simp only [isPrintable, Bool.or_eq_true, Bool.and_eq_true, decide_eq_true_eq] at h
  simp only [isAllowed, Bool.or_eq_true, Bool.and_eq_true, decide_eq_true_eq]
  omega

theorem unifyBreaks_of_printable {x : List Char} (h : Printable x) : unifyBreaks x = x := by
  induction x with
  | nil => rfl
  | cons a x ih =>
    obtain ⟨ha, hx⟩ := printable_cons.1 h
    have hreturn : a ≠ '\r' := ne_of_isPrintable ha (by decide)
    have hnext : a ≠ '\u0085' := ne_of_isPrintable ha (by decide)
    rw [unifyBreaks, ih hx, if_neg (by simp [hreturn, hnext])]
    exact fun _ h => absurd h hreturn

/-- What is allowed as it is comes to the scanner as it is. -/
theorem tokens?_of_printable {text : String} (h : Printable text.toList) {ts : List Token}
    (hgives : Scanner.Gives { rest := text.toList } ts) : tokens? text = some ts := by
  have hmark : text.toList.dropWhile (· = '\ufeff') = text.toList := by
    cases hx : text.toList with
    | nil => rfl
    | cons a x =>
      rw [hx] at h
      have ha : a ≠ '\ufeff' := ne_of_isPrintable (printable_cons.1 h).1 (by decide)
      simp [ha]
  have hall : text.toList.all isAllowed = true :=
    List.all_eq_true.2 fun a ha => isAllowed_of_isPrintable (h a ha)
  rw [tokens?]
  dsimp only
  rw [if_pos hall, hmark, unifyBreaks_of_printable h]
  exact hgives _ (Nat.lt_succ_self _)

theorem gives_render {es : List (Yaml × Yaml)} (h : Writable (mapping es)) :
    Scanner.Gives { rest := (render (mapping es)).toList } (tokensOf (mapping es)) := by
  obtain ⟨hne, hkeys, hvalues⟩ := writable_mapping_iff.1 h
  have hend : Follows 0 [] := ⟨by simp, fun _ => rfl⟩
  have hscanned : ∀ e ∈ es, Scanner.IsScanned e.2 :=
    fun e he => Scanner.isScanned_of_writable (hvalues e he)
  obtain ⟨t₀, heq, ht₀, hmapping⟩ :=
    Scanner.exists_leads_mapping (c := 0) [] hne hkeys hscanned (by simp) (Nat.le_refl _) hend
  have htext : (render (mapping es)).toList = t₀ := by
    have hsame : entriesText 0 es = t₀ := by simpa [spaces] using heq
    rw [render_mapping hne, String.toList_ofList, hsame]
  have hready : Scanner.Ready { rest := (render (mapping es)).toList } 0 t₀ [] :=
    ⟨⟨rfl, ⟨_, rfl⟩, by simp, by simp⟩, htext, rfl, rfl, rfl, ht₀⟩
  obtain ⟨s', hleads, hs'⟩ := hmapping _ hready
  have hgives := hs'.gives_end
  rw [hleads.tokens] at hgives
  exact hleads.gives _ hgives

theorem tokens?_render {es : List (Yaml × Yaml)} (h : Writable (mapping es)) :
    tokens? (render (mapping es)) = some (tokensOf (mapping es)) := by
  have hne := (writable_mapping_iff.1 h).1
  have htext := printable_valueText h 0 0
  rw [valueText_mapping hne, printable_cons] at htext
  refine tokens?_of_printable ?_ (gives_render h)
  rw [render_mapping hne, String.toList_ofList]
  exact htext.2

end Progression.Yaml
