import Progression.Proofs.Yaml.Blocks
import Progression.Proofs.Yaml.Quoted

/-!
Tokens of scalars, keys and items in text that has been written. `Ready` and `Awaits` are the states
of the scanner between tokens, and every lemma is a way (`Leads`) from one of them to the next, with
the tokens on it.
-/

namespace Progression.Yaml

variable {s t : List Char} {k : Nat}

/-! ### Styles -/

/-- A text that is read back when it is written in a style. -/
def Fits : Style → List Char → Prop
  | .plain, s => PlainForm s
  | .single, s => (∀ c ∈ s, isPrintable c = true) ∧ '\n' ∉ s ∧ meet isSpace isBreak s = false ∧
      meet isBreak isSpace s = false
  | .double, _ => True
  | .literal, s => s ≠ [] ∧ ∀ c ∈ s, isPrintable c = true
  | .folded, _ => False

theorem isPrintable_of_isSpecial (h : isSpecial s = false) : ∀ c ∈ s, isPrintable c = true := by
  rw [isSpecial, Bool.or_eq_false_iff, List.any_eq_false] at h
  intro c hc
  simpa using h.1 c hc

theorem plainForm_of_isPlainText (h : isPlainText s = true) (hs : s ≠ []) : PlainForm s := by
  obtain ⟨c, s, rfl⟩ := List.exists_cons_of_ne_nil hs
  simp only [isPlainText, Bool.and_eq_true, Bool.not_eq_true'] at h
  obtain ⟨⟨⟨⟨hspecial, hbreak⟩, hloose⟩, hstart⟩, hinside⟩ := h
  rw [hasLooseEnd, Bool.or_eq_false_iff] at hloose
  have hcolon : (decide (c = ':') && atBlank s) = false := by
    simp only [startsBadly, Bool.or_eq_false_iff] at hstart
    cases hc : decide (c = ':') with
    | false => rfl
    | true =>
      obtain rfl := of_decide_eq_true hc
      simpa using hstart.1.1.2
  have hend : ∀ o : Option Char, o.any (fun c => isSpace c || isBreak c) = false →
      ∀ d ∈ o, d ≠ ' ' := by
    rintro o h d rfl rfl
    simp [isSpace] at h
  refine ⟨by simp, isPrintable_of_isSpecial hspecial, ?_, hend _ hloose.1, hend _ hloose.2, hstart,
    ?_⟩
  · simpa using hbreak
  · rw [hasIndicator, hcolon, hinside]
    simp [isBlank, isBreak]

/-- A string is read back in the style it is written in. -/
theorem fits_styleOf (s : String) : Fits (styleOf s) s.toList := by
  have single (hspecial : isSpecial s.toList = false) (hnl : s.toList.contains '\n' = false)
      (hmeet : meet isBreak isSpace s.toList = false) : Fits .single s.toList := by
    have hspace := hspecial
    rw [isSpecial, Bool.or_eq_false_iff] at hspace
    exact ⟨isPrintable_of_isSpecial hspecial, by simpa using hnl, hspace.2, hmeet⟩
  unfold styleOf
  dsimp only
  split
  · next hnl =>
    split
    · trivial
    · next h =>
      simp only [Bool.or_eq_true, not_or, Bool.not_eq_true] at h
      refine ⟨fun hs => ?_, isPrintable_of_isSpecial h.1⟩
      rw [hs] at hnl
      cases hnl
  next hnl =>
  split
  · trivial
  next hspecial =>
  simp only [Bool.not_eq_true] at hnl hspecial
  split
  · split
    · trivial
    · next hmeet => exact single hspecial hnl (by simpa using hmeet)
  · next h =>
    simp only [Bool.or_eq_true, not_or, Bool.not_eq_true, Bool.not_eq_false'] at h
    refine plainForm_of_isPlainText h.2 fun hs => ?_
    obtain rfl : s = "" := by simpa using hs
    simp [isAmbiguous, nullWords] at h

namespace Scanner

/-! ### Ways of the scanner -/

/-- The tokens so far. -/
def tokens (s : Scanner) : List Token := resolve s.fillings s.pieces.reverse

/-- The scanner comes to some tokens in as many steps as the text that is left allows. -/
def Gives (s : Scanner) (ts : List Token) : Prop := ∀ n, s.rest.length < n → s.run n = some ts

/-- A way to a later state, with the tokens on it. -/
structure Leads (s : Scanner) (ts : List Token) (s' : Scanner) : Prop where
  tokens : s'.tokens = s.tokens ++ ts
  gives : ∀ all, s'.Gives all → s.Gives all

/-- The columns of open blocks, the innermost first, and of what is outside of all blocks. -/
def columns (stack : List Nat) : List Int := stack.map (fun c : Nat => (c : Int)) ++ [-1]

/-- The open blocks, and the places where a key may begin. -/
structure Within (s : Scanner) (stack : List Nat) : Prop where
  blocks : s.indent :: s.indents = columns stack
  single : ∃ key, s.keys = [key]
  fillings : ∀ f ∈ s.fillings, f.place < s.places
  places : ∀ n, .place n ∈ s.pieces → n < s.places

/-- The scanner directly before a text, at a column. -/
structure Ready (s : Scanner) (k : Nat) (t : List Char) (stack : List Nat) : Prop
    extends Within s stack where
  rest : s.rest = t
  column : s.mark.column = k
  keys : s.keys = [none]
  allowed : s.keyAllowed = true
  follows : Follows k t

/-- The scanner after a colon or a hyphen. -/
structure Awaits (s : Scanner) (c : Nat) (r : List Char) (stack : List Nat) : Prop
    extends Within s (c :: stack) where
  rest : s.rest = r
  keys : s.keys = [none]
  column : c < s.mark.column

/-- The scanner after a value, with blanks before what follows. -/
structure Ends (s : Scanner) (k : Nat) (t : List Char) (stack : List Nat) : Prop
    extends Within s stack where
  follows : Follows k t
  required : ∀ key ∈ s.keys, ∀ p ∈ key, p.required = false
  reaches : ∃ m, skipIdle false s.keyAllowed false s.mark s.rest = (true, m, t) ∧ m.column = k ∧
    ∀ key ∈ s.keys, ∀ p ∈ key, p.mark.line < m.line

variable {s s' s'' : Scanner} {ts ts' : List Token} {stack : List Nat} {c : Nat} {r : List Char}

namespace Leads

theorem refl (s : Scanner) : Leads s [] s := ⟨(List.append_nil _).symm, fun _ h => h⟩

theorem trans (h : Leads s ts s') (h' : Leads s' ts' s'') : Leads s (ts ++ ts') s'' :=
  ⟨by rw [h'.tokens, h.tokens, List.append_assoc], fun all hall => h.gives all (h'.gives all hall)⟩

end Leads

theorem columns_ne_nil (stack : List Nat) : columns stack ≠ [] := by simp [columns]

namespace Within

theorem of_cons (h : Within s (c :: stack)) : s.indent = c ∧ s.indents = columns stack :=
  List.cons.inj h.blocks

theorem indent_eq (h : Within s stack) : s.indent = -1 ∨ ∃ d ∈ stack.head?, s.indent = d := by
  cases stack with
  | nil => exact .inl (List.cons.inj h.blocks).1
  | cons d stack => exact .inr ⟨d, rfl, h.of_cons.1⟩

theorem inFlow (h : Within s stack) : s.inFlow = false := by
  obtain ⟨key, hkey⟩ := h.single
  rw [Scanner.inFlow, hkey]
  rfl

end Within

/-! ### Places of keys -/

theorem tokens_emit (s : Scanner) (t : Token) : (s.emit t).tokens = s.tokens ++ [t] := by
  simp [tokens, emit, resolve]

theorem resolve_append (fillings : List Filling) (ps qs : List Piece) :
    resolve fillings (ps ++ qs) = resolve fillings ps ++ resolve fillings qs :=
  List.flatMap_append

/-- A place that is not filled adds nothing. -/
theorem resolve_place {fillings : List Filling} {n : Nat} (h : ∀ f ∈ fillings, f.place < n) :
    resolve fillings [.place n] = [] := by
  have hnone : fillings.find? (·.place = n) = none := by
    rw [List.find?_eq_none]
    intro f hf
    simpa using Nat.ne_of_lt (h f hf)
  simp [resolve, hnone]

/-- A filling says nothing about earlier places. -/
theorem resolve_filling {fillings : List Filling} {f : Filling} {pieces : List Piece}
    (h : ∀ n, .place n ∈ pieces → n < f.place) :
    resolve (f :: fillings) pieces = resolve fillings pieces := by
  rw [resolve, resolve, List.flatMap_def, List.flatMap_def]
  refine congrArg List.flatten (List.map_congr_left fun p hp => ?_)
  cases p with
  | token t => rfl
  | place n =>
    have hne : f.place ≠ n := Nat.ne_of_gt (h n hp)
    simp [hne]

/-! ### Between tokens -/

theorem run_succ (s : Scanner) (n : Nat) : s.run (n + 1) =
    match s.toNext.dropStale with
    | none => none
    | some s =>
      let s := s.unrollTo s.mark.column
      match s.rest with
      | [] => s.finish
      | c :: after =>
        match s.next c after with
        | some s => run s n
        | none => none := rfl

/-- Two scanners that come to the same state before their next token come to the same tokens. -/
theorem gives_of_dropStale_eq {all : List Token} (hrest : s'.rest.length ≤ s.rest.length)
    (h : s.toNext.dropStale.map (fun s => s.unrollTo s.mark.column) =
      s'.toNext.dropStale.map (fun s => s.unrollTo s.mark.column)) (hall : s'.Gives all) :
    s.Gives all := by
  rintro (_ | n) hn
  · cases hn
  · rw [← hall (n + 1) (Nat.lt_of_le_of_lt hrest hn), run_succ, run_succ]
    cases hs : s.toNext.dropStale <;> cases hs' : s'.toNext.dropStale <;>
      simp_all

theorem length_of_skipIdle {flow allowed comment allowed' : Bool} {m m' : Mark} {s t : List Char}
    (h : skipIdle flow allowed comment m s = (allowed', m', t)) : t.length ≤ s.length := by
  induction s generalizing allowed comment m with
  | nil =>
    cases h
    exact Nat.le_refl _
  | cons c s ih =>
    unfold skipIdle at h
    split at h
    · exact Nat.le_succ_of_le (ih h)
    · split at h
      · exact Nat.le_succ_of_le (ih h)
      · split at h
        · exact Nat.le_succ_of_le (ih h)
        · split at h
          · exact Nat.le_succ_of_le (ih h)
          · cases h
            exact Nat.le_refl _

namespace Ready

theorem toNext (h : Ready s k t stack) : s.toNext = s := by
  rw [Scanner.toNext, h.inFlow, h.rest, h.follows.skipIdle, ← h.rest]

theorem dropStale (h : Ready s k t stack) : s.dropStale = some s := by
  have hkeys : s = { s with keys := [none] } := by rw [← h.keys]
  rw [hkeys]
  rfl

end Ready

/-- The keys are given up where the line has ended. -/
theorem Ends.leads (h : Ends s k t stack) : ∃ s', Leads s [] s' ∧ Ready s' k t stack := by
  obtain ⟨m, hskip, hcolumn, hkeys⟩ := h.reaches
  let s' : Scanner := { s with rest := t, mark := m, keys := [none], keyAllowed := true }
  have hready : Ready s' k t stack :=
    ⟨⟨h.blocks, ⟨none, rfl⟩, h.fillings, h.places⟩, rfl, hcolumn, rfl, rfl, h.follows⟩
  have hnext : s.toNext = { s with rest := t, mark := m, keyAllowed := true } := by
    rw [Scanner.toNext, h.inFlow, hskip]
  have hdrop : s.toNext.dropStale = some s' := by
    obtain ⟨key, hkey⟩ := h.single
    have hrequired := h.required
    rw [hkey] at hkeys hrequired
    rw [hnext, Scanner.dropStale]
    cases key with
    | none => simp [s', hkey]
    | some p =>
      have hp : p.required = false := hrequired (some p) (by simp) p rfl
      have hline : p.mark.line < m.line := hkeys (some p) (by simp) p rfl
      simp [s', hkey, isStale, hp, Nat.not_le.2 hline]
  refine ⟨s', ⟨(List.append_nil _).symm, fun all hall => ?_⟩, hready⟩
  refine gives_of_dropStale_eq (length_of_skipIdle hskip) ?_ hall
  rw [hdrop, hready.toNext, hready.dropStale]

theorem Within.unrollTo (h : Within s stack) {column : Nat} (hc : ∀ d ∈ stack.head?, d ≤ column) :
    s.unrollTo column = s := by
  have hle : s.indent ≤ column := by
    rcases h.indent_eq with hindent | ⟨d, hd, hindent⟩
    · omega
    · have := hc d hd
      omega
  have hclose : closeBlocks column s.indent s.indents s.pieces =
      (s.indent, s.indents, s.pieces) := by
    cases s.indents with
    | nil => rfl
    | cons i is => rw [closeBlocks, if_neg (by omega)]
  rw [Scanner.unrollTo, h.inFlow, hclose]
  rfl

/-- A block ends before what is not as deep. -/
theorem Ready.leads_blockEnd (h : Ready s k t (c :: stack)) (hk : k < c) :
    ∃ s', Leads s [.blockEnd] s' ∧ Ready s' k t stack := by
  obtain ⟨hindent, hindents⟩ := h.of_cons
  obtain ⟨i, is, hcons⟩ : ∃ i is, s.indents = i :: is :=
    List.exists_cons_of_ne_nil (hindents ▸ columns_ne_nil stack)
  let s' : Scanner := { s.emit .blockEnd with indent := i, indents := is }
  have hready : Ready s' k t stack :=
    ⟨⟨hcons.symm.trans hindents, h.single, h.fillings, by simpa [s', emit] using h.places⟩, h.rest,
      h.column, h.keys, h.allowed, h.follows⟩
  refine ⟨s', ⟨tokens_emit s .blockEnd, fun all hall => ?_⟩, hready⟩
  refine gives_of_dropStale_eq ?_ ?_ hall
  · exact Nat.le_refl _
  rw [h.toNext, h.dropStale, hready.toNext, hready.dropStale, Option.map_some, Option.map_some]
  have hclose : closeBlocks k s.indent s.indents s.pieces = closeBlocks k i is s'.pieces := by
    rw [hcons, closeBlocks, if_pos (by omega)]
    rfl
  rw [h.column, hready.column, Scanner.unrollTo, Scanner.unrollTo, h.inFlow, hready.inFlow, hclose]
  rfl

/-! ### Keys -/

theorem gives_of_next {s₁ : Scanner} {a : Char} {after : List Char} {all : List Token}
    (hdrop : s.toNext.dropStale = some s₁) (hunroll : s₁.unrollTo s₁.mark.column = s₁)
    (hrest : s₁.rest = a :: after) (hnext : s₁.next a after = some s')
    (hlength : s'.rest.length < s.rest.length) (hall : s'.Gives all) : s.Gives all := by
  rintro (_ | n) hn
  · cases hn
  · rw [run_succ, hdrop]
    dsimp only
    rw [hunroll, hrest]
    dsimp only
    rw [hnext]
    exact hall n (by omega)

/-- The first character of a plain scalar. -/
theorem next_plain {a : Char} {after : List Char} (hflow : s.inFlow = false)
    (hmark : s.mark.column = 0 → atDocumentMark s.rest = false) (ha : a ∉ startIndicators)
    (hblank : isBlank a = false) (hsign : a = '-' ∨ a = '?' ∨ a = ':' → atBlank after = false) :
    s.next a after = s.plainScalar := by
  have hne : ∀ d ∈ startIndicators, a ≠ d := fun d hd h => ha (h ▸ hd)
  simp only [startIndicators, List.forall_mem_cons] at hne
  have hmark' : ¬ (s.mark.column = 0 ∧ atDocumentMark s.rest = true) := fun h => by
    rw [hmark h.1] at h
    cases h.2
  have hstarts : s.startsPlain a after = true := by
    by_cases h : a = '-' ∨ a = '?' ∨ a = ':'
    · have hat := hsign h
      have hhead : after.head?.any isBlank = false := by
        cases after with
        | nil => rfl
        | cons d after => simp_all [atBlank]
      rcases h with rfl | rfl | rfl <;> simp [startsPlain, hflow, hhead, hat]
    · simp only [not_or] at h
      simp [startsPlain, indicators, hblank, hne, h]
  have hsign' : ∀ d, d = '-' ∨ d = '?' ∨ d = ':' → ¬ (a = d ∧ atBlank after = true) := by
    rintro d hd ⟨rfl, h⟩
    rw [hsign hd] at h
    cases h
  simp [Scanner.next, hne, hmark', hsign', hflow, hstarts]

/-- What a key opens: nothing where a block stands at its column, else a mapping. -/
def Opens (c : Nat) (stack outer : List Nat) (mapping : Bool) : Prop :=
  if mapping then stack = outer ∧ ∀ d ∈ outer.head?, d < c else stack = c :: outer

/-- The block of a key, open. -/
theorem Within.rollTo {outer : List Nat} {mapping : Bool} (h : Within s stack)
    (hopens : Opens c stack outer mapping) :
    s.rollTo c = (mapping, { s with indent := c, indents := columns outer }) := by
  cases mapping with
  | false =>
    obtain rfl : stack = c :: outer := hopens
    obtain ⟨hindent, hindents⟩ := h.of_cons
    simp [Scanner.rollTo, ← hindent, ← hindents]
  | true =>
    obtain ⟨rfl, hlt⟩ : stack = outer ∧ ∀ d ∈ outer.head?, d < c := hopens
    have hindent : s.indent < (c : Int) := by
      rcases h.indent_eq with hindent | ⟨d, hd, hindent⟩
      · omega
      · have := hlt d hd
        omega
    simp [Scanner.rollTo, h.inFlow, hindent, h.blocks]

theorem Opens.le {outer : List Nat} {mapping : Bool} (h : Opens c stack outer mapping) :
    ∀ d ∈ stack.head?, d ≤ c := by
  intro d hd
  cases mapping with
  | false =>
    obtain rfl : stack = c :: outer := h
    cases hd
    exact Nat.le_refl _
  | true => exact Nat.le_of_lt (h.2 d (h.1 ▸ hd))

/-- The place where a key begins. -/
def keyPlace (s : Scanner) : KeyPlace := ⟨s.places, s.mark, decide (s.indent = s.mark.column)⟩

/-- The scanner after a name that may be a key, before a colon. -/
def pastName (s : Scanner) (name r : List Char) : Scanner :=
  { s with
    rest := ':' :: r
    mark := s.mark.skip name.length
    keys := [some s.keyPlace]
    pieces := .token (.scalar .plain (String.ofList name)) :: .place s.places :: s.pieces
    places := s.places + 1
    keyAllowed := false }

/-- The scanner after the colon, in the block that the key has opened or found. -/
def pastColon (s : Scanner) (name r : List Char) (c : Nat) (outer : List Nat) (mapping : Bool) :
    Scanner :=
  { s.pastName name r with
    rest := r
    mark := (s.mark.skip name.length).skip 1
    keys := [none]
    pieces := .token .value :: (s.pastName name r).pieces
    fillings := ⟨s.places, mapping⟩ :: s.fillings
    indent := c
    indents := columns outer }

section Keys

variable {name : List Char} {outer : List Nat} {mapping : Bool}

theorem Within.pastName (h : Within s stack) (name r : List Char) :
    Within (s.pastName name r) stack := by
  refine ⟨h.blocks, ⟨_, rfl⟩, fun f hf => Nat.lt_succ_of_lt (h.fillings f hf), fun n hn => ?_⟩
  simp only [Scanner.pastName, List.mem_cons, reduceCtorEq, Piece.place.injEq, false_or] at hn
  rcases hn with rfl | hn
  · exact Nat.lt_succ_self _
  · exact Nat.lt_succ_of_lt (h.places n hn)

/-- A name is passed over, and its place is kept. -/
theorem Ready.gives_of_pastName (h : Ready s c (name ++ ':' :: r) stack) (hname : IsName name)
    (hr : atBlank r = true) (hc : ∀ d ∈ stack.head?, d ≤ c) {all : List Token}
    (hall : (s.pastName name r).Gives all) : s.Gives all := by
  obtain ⟨a, name', hcons⟩ := List.exists_cons_of_ne_nil hname.ne_nil
  have ha := hname.part a (by simp [hcons])
  have hhyphen : a ≠ '-' := by simpa [hcons] using hname.head
  have hrest : s.rest = a :: (name' ++ ':' :: r) := by rw [h.rest, hcons, List.cons_append]
  have hsave : s.saveKey = some { s with
      keys := [some s.keyPlace], pieces := .place s.places :: s.pieces,
      places := s.places + 1 } := by
    simp [saveKey, h.allowed, dropKey, h.keys, h.inFlow, keyPlace]
  have hscalar : s.next a (name' ++ ':' :: r) = some (s.pastName name r) := by
    rw [next_plain h.inFlow fun _ => h.rest ▸ hname.atDocumentMark _]
    · rw [plainScalar, hsave]
      simp [h.rest, inFlow, hname.plainFrom_key, hr, take, emit, pastName]
    · exact not_mem_startIndicators_of_isNamePart ha
    · exact isBlank_of_isNamePart ha
    · rintro (rfl | rfl | rfl)
      · exact absurd rfl hhyphen
      all_goals exact absurd ha (by decide)
  refine gives_of_next (h.toNext.symm ▸ h.dropStale) ?_ hrest hscalar ?_ hall
  · rw [h.column]
    exact h.toWithin.unrollTo hc
  · rw [hrest]
    simp only [pastName, List.length_cons, List.length_append]
    omega

/-- The colon fills the place of the name. -/
theorem Ready.gives_of_pastColon (h : Ready s c (name ++ ':' :: r) stack) (hname : IsName name)
    (hlength : name.length ≤ 1024) (hr : atBlank r = true) (hopens : Opens c stack outer mapping)
    {all : List Token} (hall : (s.pastColon name r c outer mapping).Gives all) :
    (s.pastName name r).Gives all := by
  have hwithin := h.toWithin.pastName name r
  have hpos : 0 < name.length := List.length_pos_iff.2 hname.ne_nil
  have hcolumn : (s.pastName name r).mark.column = c + name.length := by
    simp [pastName, Mark.skip, h.column]
  have hdrop : (s.pastName name r).toNext.dropStale = some (s.pastName name r) := by
    have hnext : (s.pastName name r).toNext = s.pastName name r := by
      rw [Scanner.toNext, hwithin.inFlow]
      rfl
    rw [hnext]
    simp [Scanner.dropStale, isStale, pastName, keyPlace, Mark.skip, Nat.not_lt.2 hlength]
  have hcolon : (s.pastName name r).next ':' r = some (s.pastColon name r c outer mapping) := by
    have hzero : ¬ (s.pastName name r).mark.column = 0 := by omega
    have hkeys : (s.pastName name r).keys = [some s.keyPlace] := rfl
    have hkey : s.keyPlace.mark.column = c := h.column
    have hnext : (s.pastName name r).next ':' r = (s.pastName name r).colon := by
      simp [Scanner.next, hzero, hr]
    rw [hnext]
    simp [Scanner.colon, hkeys, hkey, hwithin.rollTo hopens]
    rfl
  refine gives_of_next hdrop ?_ rfl hcolon (Nat.lt_succ_self _) hall
  rw [hcolumn]
  exact hwithin.unrollTo fun d hd => Nat.le_add_right_of_le (hopens.le d hd)

/-- A key and its colon. -/
theorem Ready.leads_key (h : Ready s c (name ++ ':' :: r) stack) (hname : IsName name)
    (hlength : name.length ≤ 1024) (hr : atBlank r = true) (hopens : Opens c stack outer mapping) :
    ∃ s', Leads s ((if mapping then [.blockMapping] else []) ++
      [.key, .scalar .plain (String.ofList name), .value]) s' ∧ Awaits s' c r outer := by
  refine ⟨s.pastColon name r c outer mapping, ⟨?_, fun all hall => ?_⟩, ?_⟩
  · have hold : resolve (⟨s.places, mapping⟩ :: s.fillings) s.pieces.reverse =
        resolve s.fillings s.pieces.reverse :=
      resolve_filling fun n hn => h.places n (List.mem_reverse.1 hn)
    have hsplit : (s.pastColon name r c outer mapping).pieces.reverse = s.pieces.reverse ++
        [.place s.places, .token (.scalar .plain (String.ofList name)), .token .value] := by
      simp [pastColon, pastName]
    rw [tokens, hsplit, pastColon, resolve_append, hold, tokens]
    cases mapping <;> simp [resolve]
  · exact h.gives_of_pastName hname hr hopens.le (h.gives_of_pastColon hname hlength hr hopens hall)
  · have hwithin := h.toWithin.pastName name r
    have hcolumn : (s.pastColon name r c outer mapping).mark.column = c + name.length + 1 := by
      simp [pastColon, Mark.skip, h.column]
    refine ⟨⟨rfl, ⟨_, rfl⟩, ?_, fun n hn => ?_⟩, rfl, rfl, by omega⟩
    · exact List.forall_mem_cons.2 ⟨Nat.lt_succ_self _, hwithin.fillings⟩
    · exact hwithin.places n (by simpa [pastColon] using hn)

end Keys

/-! ### Scalars -/

/-- The scanner in front of a scalar with its place kept, if it may be a key. -/
structure Saves (s s' : Scanner) (stack : List Nat) : Prop extends Within s' stack where
  rest : s'.rest = s.rest
  mark : s'.mark = s.mark
  tokens : s'.tokens = s.tokens
  indent : s'.indent = s.indent
  optional : ∀ key ∈ s'.keys, ∀ p ∈ key, p.required = false ∧ p.mark = s.mark

theorem Within.saves (h : Within s stack) (hkeys : s.keys = [none]) : Saves s s stack :=
  ⟨h, rfl, rfl, rfl, rfl, by simp [hkeys]⟩

theorem Within.exists_saveKey (h : Within s stack) (hkeys : s.keys = [none])
    (hindent : s.indent < s.mark.column) : ∃ s', s.saveKey = some s' ∧ Saves s s' stack := by
  cases hallowed : s.keyAllowed with
  | false => exact ⟨s, by simp [saveKey, hallowed], h.saves hkeys⟩
  | true =>
    have hne : ¬ s.indent = s.mark.column := by omega
    let key : KeyPlace := ⟨s.places, s.mark, false⟩
    refine ⟨{ s with
      keys := [some key], pieces := .place s.places :: s.pieces, places := s.places + 1 }, ?_, ?_⟩
    · simp [saveKey, hallowed, dropKey, hkeys, h.inFlow, hne, key]
    · refine ⟨⟨h.blocks, ⟨_, rfl⟩, fun f hf => Nat.lt_succ_of_lt (h.fillings f hf), fun n hn => ?_⟩,
        rfl, rfl, ?_, rfl, by simp [key]⟩
      · simp only [List.mem_cons, Piece.place.injEq] at hn
        rcases hn with rfl | hn
        · exact Nat.lt_succ_self _
        · exact Nat.lt_succ_of_lt (h.places n hn)
      · rw [Scanner.tokens, List.reverse_cons, resolve_append, resolve_place h.fillings,
          List.append_nil]
        rfl

/-- A scalar that has been read ends where what follows begins. -/
theorem Saves.ends (h : Saves s s' stack) {allowed : Bool} {m : Mark} {x : List Char} {o : Scanned}
    (ho : Reads allowed m x k t o) (hm : m.line = s.mark.line) (ht : Follows k t) (style : Style) :
    Ends ({ s' with keyAllowed := allowed }.take style o) k t stack ∧
      ({ s' with keyAllowed := allowed }.take style o).tokens =
        s.tokens ++ [.scalar style (String.ofList x)] := by
  obtain ⟨m', hskip, hcolumn, hline⟩ := ho.reaches
  constructor
  · refine ⟨⟨h.blocks, h.single, h.fillings, fun n hn => h.places n ?_⟩, ht,
      fun key hkey p hp => (h.optional key hkey p hp).1,
      m', hskip, hcolumn, fun key hkey p hp => ?_⟩
    · simpa [take, emit] using hn
    · rw [(h.optional key hkey p hp).2, ← hm]
      exact hline
  · rw [take, tokens_emit, ho.text]
    exact congrArg (· ++ _) h.tokens

/-- The next token is a scalar, behind which reading goes on where what follows begins. -/
def Takes (s : Scanner) (stack : List Nat) (style : Style) (x : List Char) (k : Nat)
    (t : List Char) : Prop :=
  ∃ a after s' o m allowed, s.rest = a :: after ∧
    (isBlank a = false ∧ isBreak a = false ∧ a ≠ '#') ∧
    s.next a after = some ({ s' with keyAllowed := allowed }.take style o) ∧ Saves s s' stack ∧
    Reads allowed m x k t o ∧ m.line = s.mark.line

/-- A value on the line of its colon or its hyphen. -/
theorem Awaits.leads_of_takes {style : Style} {x : List Char} (h : Awaits s c (' ' :: r) stack)
    (ht : Follows k t) (hlength : k + t.length < r.length)
    (htakes : ∀ s', Awaits s' c r stack → Takes s' (c :: stack) style x k t) :
    ∃ s', Leads s [.scalar style (String.ofList x)] s' ∧ Ends s' k t (c :: stack) := by
  let s₁ : Scanner := { s with rest := r, mark := s.mark.skip 1 }
  have hs₁ : Awaits s₁ c r stack :=
    ⟨⟨h.blocks, h.single, h.fillings, h.places⟩, rfl, h.keys, Nat.lt_succ_of_lt h.column⟩
  obtain ⟨a, after, s₂, o, m, allowed, hrest, ⟨hblank, hbreak, hsign⟩, hnext, hsaves, hreads,
    hline⟩ := htakes s₁ hs₁
  obtain ⟨hends, htokens⟩ := hsaves.ends hreads hline ht style
  have hdrop : s.toNext.dropStale = some s₁ := by
    have hspace : a ≠ ' ' ∧ a ≠ '\t' := by simpa [isBlank] using hblank
    have hskip : skipIdle false s.keyAllowed false s.mark (' ' :: r) =
        (s.keyAllowed, s.mark.skip 1, r) := by
      rw [skipIdle, if_neg (by decide), if_neg (by simp), if_pos (by simp),
        Mark.after_of_not_break (by decide), show r = _ from hrest]
      simp [skipIdle, hbreak, hsign, hspace]
    have htoNext : s.toNext = s₁ := by rw [Scanner.toNext, h.inFlow, h.rest, hskip]
    have hkeys : s₁.keys = [none] := h.keys
    have hself : s₁ = { s₁ with keys := [none] } := by rw [← hkeys]
    rw [htoNext, hself]
    rfl
  refine ⟨_, ⟨htokens, fun all hall => ?_⟩, hends⟩
  refine gives_of_next hdrop ?_ hrest hnext ?_ hall
  · refine hs₁.toWithin.unrollTo fun d hd => ?_
    cases hd
    exact Nat.le_of_lt hs₁.column
  · have hle := hreads.rest.length_le
    simp [spaces] at hle
    simp [h.rest, take, emit]
    omega

section Styles

variable {x : List Char}

theorem endLine_of_not_break (h : ∀ a ∈ x.getLast?, isBreak a = false) :
    endLine x = x ++ ['\n'] := by
  rw [endLine, if_neg]
  cases hx : x.getLast? with
  | none => simp
  | some a => simp [h a hx]

theorem endLine_ne_nil (x : List Char) : endLine x ≠ [] := by
  cases x with
  | nil => simp [endLine]
  | cons a x =>
    unfold endLine
    split <;> simp

theorem endLine_concat {a : Char} (ha : isBreak a = false) :
    endLine (x ++ [a]) = x ++ [a, '\n'] := by
  rw [endLine_of_not_break]
  · simp
  · rintro b hb
    rw [List.getLast?_concat] at hb
    cases hb
    exact ha

theorem Awaits.takes_plain (hx : PlainForm x)
    (h : Awaits s c (endLine x ++ (spaces k ++ t)) stack) (hk : k ≤ c) (ht : Follows k t) :
    Takes s (c :: stack) .plain x k t := by
  obtain ⟨a, xs, rfl⟩ := List.exists_cons_of_ne_nil hx.ne_nil
  have hline : endLine (a :: xs) = a :: xs ++ ['\n'] :=
    endLine_of_not_break fun b hb => hx.noBreak b (List.mem_of_getLast? hb)
  have hrest : s.rest = a :: (xs ++ '\n' :: (spaces k ++ t)) := by simp [h.rest, hline]
  have hindent := h.of_cons.1
  have hcolumn := h.column
  obtain ⟨s', hsave, hsaves⟩ := h.toWithin.exists_saveKey h.keys (by omega)
  obtain ⟨o, hread, hbroken, hreads⟩ :=
    hx.plainFrom_line (i := c + 1) hcolumn (Nat.lt_succ_of_le hk) ht
  obtain ⟨hstart, hsign⟩ := startsBadly_cons_eq_false hx.start
  have hblank : isBlank a = false := by
    cases hb : isBlank a with
    | false => rfl
    | true => exact absurd (isBlank_of_isPrintable (hx.printable a (by simp)) hb) (hx.head a rfl)
  have hhash : a ≠ '#' := by
    rintro rfl
    exact hstart (by decide)
  refine ⟨a, _, s', o, s.mark, true, hrest, ⟨hblank, hx.noBreak a (by simp), hhash⟩, ?_, hsaves,
    hreads, rfl⟩
  rw [next_plain h.inFlow (fun hzero => by omega) hstart hblank fun ha => ?_]
  · have hcontext : (s'.indent + 1).toNat = c + 1 := by
      rw [hsaves.indent, hindent]
      rfl
    rw [plainScalar, hsave]
    simp only [Option.bind_eq_bind, Option.bind_some]
    rw [hsaves.inFlow, hsaves.mark, hsaves.rest, hcontext, hrest, ← List.cons_append, hread,
      Option.bind_some, hbroken]
    rfl
  · have hxs : xs ≠ [] := by
      rintro rfl
      cases hsign ha
    rw [atBlank_append hxs, hsign ha]

/-- A value between quotes. -/
theorem Awaits.takes_quoted {style : Style} {q : Char} {body : List Char} {o : Scanned}
    (h : Awaits s c (q :: body) stack) (hq : isBlank q = false ∧ isBreak q = false ∧ q ≠ '#')
    (hnext : s.next q body = s.quoted style)
    (hread : quotedFrom (style = .single) {} (s.mark.skip 1) .text body = some o)
    (ho : Reads false (s.mark.skip 1) x k t o) : Takes s (c :: stack) style x k t := by
  have hindent := h.of_cons.1
  have hcolumn := h.column
  obtain ⟨s', hsave, hsaves⟩ := h.toWithin.exists_saveKey h.keys (by omega)
  refine ⟨q, body, s', o, s.mark.skip 1, false, h.rest, hq, ?_, hsaves, ho, rfl⟩
  have hdrop : s'.rest.drop 1 = body := by rw [hsaves.rest, h.rest]; rfl
  rw [hnext, quoted, hsave]
  simp only [Option.bind_eq_bind, Option.bind_some]
  rw [hsaves.mark, hdrop, hread]
  rfl

theorem Awaits.takes_single (hx : Fits .single x)
    (h : Awaits s c
      (endLine ('\'' :: singleBody (c + 2) false x ++ ['\'']) ++ (spaces k ++ t)) stack)
    (ht : Follows k t) : Takes s (c :: stack) .single x k t := by
  obtain ⟨hprint, hnl, hmeet, hmeet'⟩ := hx
  have hzero : ¬ s.mark.column = 0 := Nat.ne_of_gt (Nat.zero_lt_of_lt h.column)
  have hline : endLine ('\'' :: singleBody (c + 2) false x ++ ['\'']) ++ (spaces k ++ t) =
      '\'' :: (singleBody (c + 2) false x ++ '\'' :: '\n' :: (spaces k ++ t)) := by
    rw [endLine_concat (by decide)]
    simp
  rw [hline] at h
  have hform : SingleForm x := ⟨hprint, hnl, hmeet, hmeet'⟩
  obtain ⟨o, hread, ho⟩ := quotedFrom_single (m := s.mark.skip 1) (Nat.succ_pos (c + 1)) hform
    (Nat.succ_pos _) ht
  exact h.takes_quoted (by decide) (by simp [Scanner.next, hzero]) hread ho

theorem Awaits.takes_double
    (h : Awaits s c (endLine ('"' :: x.flatMap doubleChar ++ ['"']) ++ (spaces k ++ t)) stack)
    (ht : Follows k t) : Takes s (c :: stack) .double x k t := by
  have hzero : ¬ s.mark.column = 0 := Nat.ne_of_gt (Nat.zero_lt_of_lt h.column)
  have hline : endLine ('"' :: x.flatMap doubleChar ++ ['"']) ++ (spaces k ++ t) =
      '"' :: (x.flatMap doubleChar ++ '"' :: '\n' :: (spaces k ++ t)) := by
    rw [endLine_concat (by decide)]
    simp
  rw [hline] at h
  obtain ⟨o, hread, ho⟩ := quotedFrom_double (m := s.mark.skip 1) (Nat.succ_pos _) x ht
  exact h.takes_quoted (by decide) (by simp [Scanner.next, hzero]) hread ho

theorem Awaits.takes_literal (hx : Fits .literal x)
    (h : Awaits s c
      (endLine ('|' :: blockSigns x ++ '\n' :: blockLines (c + 2) true x) ++ (spaces k ++ t)) stack)
    (hk : k ≤ c) (ht : Follows k t) : Takes s (c :: stack) .literal x k t := by
  obtain ⟨hne, hprint⟩ := hx
  have hzero : ¬ s.mark.column = 0 := Nat.ne_of_gt (Nat.zero_lt_of_lt h.column)
  have hlines : blockLines (c + 2) true x ≠ [] := by
    intro hnil
    have hlast := getLast?_blockLines (c + 2) true x
    rw [hnil] at hlast
    exact hne (List.getLast?_eq_none_iff.1 hlast.symm)
  have hline : endLine ('|' :: blockSigns x ++ '\n' :: blockLines (c + 2) true x) ++
      (spaces k ++ t) = '|' :: (blockSigns x ++ '\n' ::
        (endLine (blockLines (c + 2) true x) ++ (spaces k ++ t))) := by
    have hsplit : '|' :: blockSigns x ++ '\n' :: blockLines (c + 2) true x =
        ('|' :: blockSigns x ++ ['\n']) ++ blockLines (c + 2) true x := by simp
    rw [hsplit, endLine_append hlines]
    simp
  rw [hline] at h
  obtain ⟨o, hread, ho⟩ := block?_literal hne hprint (s.mark.skip 1) (by omega : k < c + 2) ht
  refine ⟨'|', _, s, o, s.mark.skip 1, true, h.rest, by decide, ?_, h.toWithin.saves h.keys, ho,
    rfl⟩
  have hdrop : s.dropKey = some s := by simp [dropKey, h.keys]
  have hblock : block? (Style.literal = .literal) s.indent (s.mark.skip 1) (s.rest.drop 1) =
      some o := by
    rw [h.of_cons.1, h.rest]
    exact hread
  have hnext : s.next '|' = fun _ => s.block .literal := by
    funext
    simp [Scanner.next, hzero, h.inFlow]
  rw [hnext, block, hdrop, Option.bind_eq_bind, Option.bind_some, hblock]
  rfl

/-- A value on the line of its colon or its hyphen. -/
theorem Awaits.leads_scalar {style : Style} {text : String} (hx : Fits style text.toList)
    (h : Awaits s c (' ' :: (endLine (scalarText (c + 2) style text) ++ (spaces k ++ t))) stack)
    (hk : k ≤ c) (ht : Follows k t) :
    ∃ s', Leads s [.scalar style text] s' ∧ Ready s' k t (c :: stack) := by
  have hlength : k + t.length <
      (endLine (scalarText (c + 2) style text) ++ (spaces k ++ t)).length := by
    have hpos : 0 < (endLine (scalarText (c + 2) style text)).length :=
      List.length_pos_iff.2 (endLine_ne_nil _)
    simp [spaces]
    omega
  have htakes (s' : Scanner)
      (hs' : Awaits s' c (endLine (scalarText (c + 2) style text) ++ (spaces k ++ t)) stack) :
      Takes s' (c :: stack) style text.toList k t := by
    cases style with
    | plain => exact hs'.takes_plain hx hk ht
    | single => exact hs'.takes_single hx ht
    | double => exact hs'.takes_double ht
    | literal => exact hs'.takes_literal hx hk ht
    | folded => cases hx
  obtain ⟨s₁, hleads, hends⟩ := h.leads_of_takes ht hlength htakes
  obtain ⟨s₂, hleads', hready⟩ := hends.leads
  rw [String.ofList_toList] at hleads
  exact ⟨s₂, hleads.trans hleads', hready⟩

end Styles

/-! ### Lines of their own -/

/-- The end of the line of a colon. -/
theorem Awaits.leads_line (h : Awaits s c ('\n' :: (spaces k ++ t)) stack) (ht : Follows k t) :
    ∃ s', Leads s [] s' ∧ Ready s' k t (c :: stack) := by
  obtain ⟨m, hskip, hcolumn, -⟩ := skipIdle_line ht s.keyAllowed s.mark
  rw [← h.rest] at hskip
  exact Ends.leads ⟨h.toWithin, ht, by simp [h.keys], m, hskip, hcolumn, by simp [h.keys]⟩

/-- The hyphen of an item. -/
theorem Ready.leads_hyphen (h : Ready s c ('-' :: ' ' :: r) (c :: stack)) :
    ∃ s', Leads s [.blockEntry] s' ∧ Awaits s' c (' ' :: r) stack := by
  let s' : Scanner := (s.advance 1).emit .blockEntry
  have hnext : s.next '-' (' ' :: r) = some s' := by
    have hmark : atDocumentMark s.rest = false := by
      rw [h.rest]
      rfl
    have hindent := h.of_cons.1
    have hopen : s.openBlock .blockSequence = s := by
      simp [openBlock, Scanner.rollTo, hindent, h.column]
    have hentry : s.next '-' (' ' :: r) = s.blockEntry := by
      simp [Scanner.next, hmark, atBlank, isBlank]
    rw [hentry]
    have hdrop : s.dropKey = some s := by simp [dropKey, h.keys]
    have hself : { s with keyAllowed := true } = s := by rw [← h.allowed]
    simp [Scanner.blockEntry, h.inFlow, h.allowed, hopen, hdrop, hself, s']
  refine ⟨s', ⟨tokens_emit _ _, fun all hall => ?_⟩, ⟨?_, ?_, h.keys, ?_⟩⟩
  · refine gives_of_next (h.toNext.symm ▸ h.dropStale) ?_ h.rest hnext ?_ hall
    · rw [h.column]
      exact h.toWithin.unrollTo fun d hd => by cases hd; exact Nat.le_refl _
    · simp [s', advance, emit, h.rest]
  · refine ⟨h.blocks, h.single, h.fillings, fun n hn => h.places n ?_⟩
    simpa [s', advance, emit] using hn
  · simp [s', advance, emit, h.rest]
  · simp [s', advance, emit, Mark.skip, h.column]

end Scanner
end Progression.Yaml
