import Progression.Proofs.Bytes.Entity
import Progression.Proofs.Markup.Aside

/-!
Markup read over bytes. The reader keeps an offset into the whole text; what is left of the text,
the line and the byte that comes next are looked up there every time. It is related to the reader of
characters by where the two stand (`At`): one lemma for each primitive (`Agrees`), and then the
loops, along the recursion of the reader of characters. The stack of calls is taken to be unbounded.
-/

namespace Progression.Bytes

open Progression.Text Progression.Markup

/-- A reader at an offset: it moves on, or fails. -/
abbrev Reading := StateT Nat (ExceptT Failure Option)

/-! ### The reader -/

section Reader

variable (src : Bytes)

def rest : Reading Bytes := do
  drop? src (← get)

def line : Reading Nat := do
  lineOf src (← get)

/-- The byte that comes next. -/
def peek : Reading (Option (Option Char)) :=
  return (letters src)[← get]?

def atEnd : Reading Bool :=
  return size src ≤ (← get)

def fail {α : Type} (fault : Fault) : Reading α := do
  throw ⟨← line src, fault⟩

def advance (n : Nat) : Reading Unit := modify (· + n)

/-- Passes the bytes of a kind. -/
def skipRun (k : Char → Bool) : Reading Unit := do
  set (← runEnd k src (← get))

def expect (token : String) : Reading Unit := do
  if (after? token.toList (← rest src)).isSome then advance (size token.toList)
  else fail src (.expected token)

def takeUntil (mark what : String) : Reading Bytes := do
  match find mark.toList (← rest src) with
  | some i =>
    let out ← take? (← rest src) i
    advance (i + size mark.toList)
    return out
  | none => fail src (.unterminated what)

/-- Passes blanks, comments, processing instructions and declarations. -/
def skipAside (src : Bytes) : Reading Unit := do
  skipRun src isAsciiBlank
  match Opening.aside? (← rest src) with
  | some (mark, what) =>
    let _ ← takeUntil src mark what
    src |>.skipAside
  | none => return ()
partial_fixpoint

def name : Reading Bytes := do
  let start ← get
  skipRun src Cursor.isNamePart
  let pos ← get
  if pos = start then fail src .noName else slice? src start pos

def oneAttribute : Reading (List Char × List Char) := do
  let key ← name src
  skipRun src isAsciiBlank
  expect src "="
  skipRun src isAsciiBlank
  match (← peek src).join with
  | some q =>
    if q = '"' ∨ q = '\'' then
      advance 1
      let raw ← takeUntil src (String.ofList [q]) "attribute value"
      if raw.contains '<' then fail src (.lessThan (String.ofList key))
      else return (key, ← decode raw)
    else fail src (.unquoted (String.ofList key))
  | none => fail src (.unquoted (String.ofList key))

/-- The attributes of a tag, and whether the tag closes itself. -/
def attributes (src : Bytes) (tag : String) (found : List (String × String)) :
    Reading (List (String × String) × Bool) := do
  skipRun src isAsciiBlank
  match ← peek src with
  | none => fail src (.openTag tag)
  | some b =>
    if b = some '/' then
      expect src "/>"
      return (found, true)
    else if b = some '>' then
      advance 1
      return (found, false)
    else
      let (key, value) ← oneAttribute src
      match insertAttribute? (String.ofList key) (String.ofList value) found with
      | none => fail src (.duplicate (String.ofList key) tag)
      | some found => src |>.attributes tag found
partial_fixpoint

def openingTag : Reading (Frame × Bool) := do
  let line ← line src
  expect src "<"
  let tag ← name src
  let (attributes, closed) ← attributes src (String.ofList tag) []
  return ({ tag := String.ofList tag, attributes, line }, closed)

/-- The rest of a closing tag after its `</`. -/
def closingTag (tag : String) : Reading Unit := do
  let found ← name src
  if String.ofList found = tag then
    skipRun src isAsciiBlank
    expect src ">"
  else fail src (.mismatched (String.ofList found) tag)

mutual

/-- The element that begins here. -/
def element (src : Bytes) : Reading Node := do
  let (f, closed) ← openingTag src
  if closed then return f.close else src |>.content f
partial_fixpoint

/-- An element behind its opening tag. -/
def content (src : Bytes) (f : Frame) : Reading Node := do
  let s ← rest src
  match Opening.of s with
  | .ending => fail src (.unclosed f.tag)
  | .closing =>
    advance 2
    closingTag src f.tag
    return f.close
  | .comment =>
    let _ ← takeUntil src "-->" "comment"
    src |>.content f
  | .data =>
    advance (size "<![CDATA[".toList)
    let data ← takeUntil src "]]>" "CDATA section"
    src |>.content (f.addText data)
  | .instruction =>
    let _ ← takeUntil src "?>" "processing instruction"
    src |>.content f
  | .element =>
    let child ← src |>.element
    src |>.content (f.addChild child)
  | .text =>
    let stop := (find ['<'] s).getD (size s)
    let raw ← take? s stop
    let text ← decode raw
    advance stop
    src |>.content (f.addText text)
partial_fixpoint

end

def document : Reading Node := do
  skipAside src
  if ← atEnd src then fail src .noRoot
  else
    let root ← element src
    skipAside src
    if ← atEnd src then return root else fail src .afterRoot

end Reader

/-- The root of a text that comes from a source. -/
def read (source : String) (s : Bytes) : Option (Except Error Node) := do
  match ← (document s).run 0 |>.run with
  | .ok (root, _) => return .ok root
  | .error f => return .error (.parse source f.line f.fault.message)

/-! ### Where the readers stand -/

/-- The offset of a place in a text. -/
def At (src : List Char) (pos : Nat) (c : Cursor) : Prop :=
  ∃ passed, src = passed ++ c.rest ∧ pos = size passed ∧ c.line = 1 + passed.count '\n'

/-- A reader at the offset of a place does what is known of that place: it fails alike, or it has
the same answer and stands at the offset of the same place. -/
def Agrees {α β : Type} (src : List Char) (m : Reading α) (c : Cursor) (view : β → α × Cursor)
    (r : Except Failure β) : Prop :=
  ∀ pos, At src pos c → match r with
    | .error e => m pos = some (.error e)
    | .ok b => ∃ next, At src next (view b).2 ∧ m pos = some (.ok ((view b).1, next))

section Agrees

variable {α β γ δ : Type} {src t r : List Char} {c c' : Cursor} {pos : Nat} {m : Reading α}
  {f : α → Reading γ} {view : β → α × Cursor} {view' : δ → γ × Cursor}

theorem At.past (h : At src pos c) (hc : c.rest = t ++ r) : At src (pos + size t) (c.past t r) := by
  obtain ⟨passed, hsrc, rfl, hline⟩ := h
  refine ⟨passed ++ t, ?_, (size_append ..).symm, ?_⟩
  · rw [hsrc, hc, List.append_assoc]
    rfl
  · show c.line + t.count '\n' = _
    rw [hline, List.count_append, Nat.add_assoc]

theorem Agrees.pure (a : α) (c : Cursor) : Agrees src (Pure.pure a) c id (.ok (a, c)) :=
  fun pos h => ⟨pos, h, rfl⟩

theorem Agrees.bind_of_ok {x : Except Failure β} {y : Except Failure δ} {b : β}
    (hm : Agrees src m c view x) (hx : x = .ok b)
    (hf : Agrees src (f (view b).1) (view b).2 view' y) : Agrees src (m >>= f) c view' y := by
  subst hx
  intro pos hpos
  obtain ⟨next, hnext, hrun⟩ := hm pos hpos
  have hstep : (m >>= f) pos = f (view b).1 next := by
    show (m pos >>= fun p => f p.1 p.2 : ExceptT Failure Option _) = _
    rw [hrun]
    rfl
  rw [hstep]
  exact hf next hnext

theorem Agrees.bind_of_error {x : Except Failure β} {e : Failure} (hm : Agrees src m c view x)
    (hx : x = .error e) : Agrees src (m >>= f) c view' (.error e) := by
  subst hx
  intro pos hpos
  show (m pos >>= fun p => f p.1 p.2 : ExceptT Failure Option _) = _
  rw [hm pos hpos]
  rfl

theorem Agrees.andThen {a : α} {y : Except Failure δ} (hm : Agrees src m c id (.ok (a, c')))
    (hf : Agrees src (f a) c' view' y) : Agrees src (m >>= f) c view' y :=
  hm.bind_of_ok rfl hf

theorem Agrees.bind {x : Except Failure β} {g : β → Except Failure δ} (hm : Agrees src m c view x)
    (hf : ∀ b, x = .ok b → Agrees src (f (view b).1) (view b).2 view' (g b)) :
    Agrees src (m >>= f) c view' (x >>= g) := by
  cases hx : x with
  | error e => exact hm.bind_of_error hx
  | ok b => exact hm.bind_of_ok hx (hf b hx)

/-! ### Primitives -/

theorem Agrees.lift {x : Option α} {a : α} (hx : x = some a) (c : Cursor) :
    Agrees src (liftM x) c id (.ok (a, c)) := by
  subst hx
  exact fun pos h => ⟨pos, h, rfl⟩

theorem agrees_rest (c : Cursor) : Agrees src (rest src) c id (.ok (c.rest, c)) := by
  rintro pos ⟨passed, hsrc, rfl, hline⟩
  refine ⟨_, ⟨passed, hsrc, rfl, hline⟩, ?_⟩
  show (liftM (drop? src (size passed)) : Reading _) _ = _
  rw [drop?_eq_some hsrc rfl]
  rfl

theorem agrees_line (c : Cursor) : Agrees src (line src) c id (.ok (c.line, c)) := by
  rintro pos ⟨passed, hsrc, rfl, hline⟩
  refine ⟨_, ⟨passed, hsrc, rfl, hline⟩, ?_⟩
  show (liftM (lineOf src (size passed)) : Reading _) _ = _
  rw [hsrc, lineOf_append, ← hline]
  rfl

theorem agrees_peek (c : Cursor) : Agrees src (peek src) c id (.ok (c.rest.head?.map lead, c)) := by
  rintro pos ⟨passed, hsrc, rfl, hline⟩
  refine ⟨_, ⟨passed, hsrc, rfl, hline⟩, ?_⟩
  show some (Except.ok ((letters src)[size passed]?, size passed)) = _
  rw [hsrc, getElem?_letters]
  cases c.rest with
  | nil => rfl
  | cons x r =>
    rw [← List.head?_eq_getElem?, head?_letters_cons]
    rfl

theorem agrees_atEnd (c : Cursor) : Agrees src (atEnd src) c id (.ok (c.rest.isEmpty, c)) := by
  rintro pos ⟨passed, hsrc, rfl, hline⟩
  refine ⟨_, ⟨passed, hsrc, rfl, hline⟩, ?_⟩
  have hend : decide (size src ≤ size passed) = c.rest.isEmpty := by
    rw [hsrc]
    cases c.rest with
    | nil => simp
    | cons x r =>
      simp only [(size_lt_append_cons passed x r).not_ge, decide_false, List.isEmpty_cons]
  show some (Except.ok (decide (size src ≤ size passed), size passed)) = _
  rw [hend]
  rfl

theorem agrees_fail (view : β → α × Cursor) (fault : Fault) (c : Cursor) :
    Agrees src (fail src fault) c view (c.fail fault) :=
  (agrees_line c).andThen fun _ _ => rfl

theorem agrees_advance {n : Nat} (hc : c.rest = t ++ r) (hn : n = size t) :
    Agrees src (advance n) c id (.ok ((), c.past t r)) := by
  subst hn
  exact fun pos hpos => ⟨pos + size t, hpos.past hc, rfl⟩

theorem skipRun_append {k : Char → Bool} (hk : AsciiKind k) (p r : List Char) :
    skipRun (p ++ r) k (size p) = some (.ok ((), size (p ++ r.takeWhile k))) := by
  show ((liftM (runEnd k (p ++ r) (size p)) : Reading _) >>= set) _ = _
  rw [runEnd_append hk]
  rfl

theorem At.skipWhile (h : At src pos c) (k : Char → Bool) :
    At src (pos + size (c.rest.takeWhile k)) (c.skipWhile k) :=
  h.past List.takeWhile_append_dropWhile.symm

theorem agrees_skipRun {k : Char → Bool} (hk : AsciiKind k) (c : Cursor) :
    Agrees src (skipRun src k) c id (.ok ((), c.skipWhile k)) := by
  intro pos hpos
  refine ⟨_, hpos.skipWhile k, ?_⟩
  obtain ⟨passed, rfl, rfl, -⟩ := hpos
  rw [skipRun_append hk, size_append]

theorem agrees_skipBlanks (c : Cursor) :
    Agrees src (skipRun src isAsciiBlank) c id (.ok ((), c.skipBlanks)) :=
  agrees_skipRun asciiKind_isAsciiBlank c

theorem agrees_expect (token : String) (c : Cursor) :
    Agrees src (expect src token) c ((), ·) (c.expect token) := by
  refine (agrees_rest c).andThen ?_
  unfold Cursor.expect
  cases h : after? token.toList c.rest with
  | none => exact agrees_fail _ _ c
  | some r => exact agrees_advance (after?_eq_some_iff.1 h) rfl

theorem agrees_takeUntil (mark what : String) (c : Cursor) :
    Agrees src (takeUntil src mark what) c id (c.takeUntil mark what) := by
  refine (agrees_rest c).andThen ?_
  unfold Cursor.takeUntil find
  cases h : cut? mark.toList c.rest with
  | none => exact agrees_fail _ _ c
  | some q =>
    obtain ⟨before, r⟩ := q
    have hc := eq_of_cut? h
    have htake : take? c.rest (size before) = some before := by
      rw [hc, List.append_assoc, take?_append]
    refine (agrees_rest c).andThen ((Agrees.lift htake c).andThen ?_)
    exact (agrees_advance hc (by rw [size_append])).andThen (.pure _ _)

theorem asciiKind_isNamePart : AsciiKind Cursor.isNamePart := by
  intro c hc
  simp only [Cursor.isNamePart, Char.isAlphanum, isAlpha_iff, Char.isDigit,
    UInt32.le_iff_toNat_le, ge_iff_le, Char.toNat_val, Bool.or_eq_true, Bool.and_eq_true,
    decide_eq_true_eq, beq_iff_eq, ← Char.toNat_inj, Char.reduceToNat] at hc
  omega

theorem agrees_name (c : Cursor) : Agrees src (name src) c id c.name := by
  intro pos hpos
  have hnext := hpos.skipWhile Cursor.isNamePart
  have hfail := agrees_fail (α := List Char) id .noName c pos hpos
  obtain ⟨passed, hsrc, rfl, -⟩ := hpos
  generalize hn : c.rest.takeWhile Cursor.isNamePart = n at hnext
  have hstep : name src (size passed) =
      (if size passed + size n = size passed then fail src .noName
        else liftM (slice? src (size passed) (size passed + size n)) : Reading (List Char))
        (size passed + size n) := by
    show (skipRun src Cursor.isNamePart (size passed) >>= fun p =>
      (if p.2 = size passed then fail src .noName
        else liftM (slice? src (size passed) p.2) : Reading (List Char)) p.2) = _
    rw [hsrc, skipRun_append asciiKind_isNamePart, hn, size_append]
    rfl
  rw [hstep, Cursor.name, hn]
  cases n with
  | nil => simpa using hfail
  | cons x n =>
    have hslice : slice? src (size passed) (size passed + size (x :: n)) = some (x :: n) :=
      slice?_eq_some (by rw [hsrc, ← hn, List.takeWhile_append_dropWhile]) rfl
        (size_append ..).symm
    have hne : size passed + size (x :: n) ≠ size passed := by
      have := size_pos (List.cons_ne_nil x n)
      omega
    rw [if_neg hne, hslice]
    exact ⟨_, hnext, rfl⟩

/-! ### Around the root and in tags -/

theorem agrees_skipAside (c : Cursor) :
    Agrees src (skipAside src) c ((), ·) (Markup.skipAside c) := by
  fun_induction Markup.skipAside c with
  | case1 c hnone =>
    rw [skipAside]
    refine (agrees_skipBlanks c).andThen ((agrees_rest _).andThen ?_)
    rw [hnone]
    exact .pure () _
  | case2 c mark what hsome e h =>
    rw [skipAside]
    refine (agrees_skipBlanks c).andThen ((agrees_rest _).andThen ?_)
    rw [hsome]
    exact (agrees_takeUntil mark what _).bind_of_error h
  | case3 c mark what hsome s c' h hempty =>
    exact absurd hempty (List.ne_nil_of_mem (Opening.mem_of_aside? hsome))
  | case4 c mark what hsome s c' h hne ih =>
    rw [skipAside]
    refine (agrees_skipBlanks c).andThen ((agrees_rest _).andThen ?_)
    rw [hsome]
    exact (agrees_takeUntil mark what _).bind_of_ok h ih

theorem agrees_oneAttribute (c : Cursor) :
    Agrees src (oneAttribute src) c (fun (key, value, c) => ((key, value), c))
      (Markup.oneAttribute c) := by
  refine (agrees_name c).bind fun ⟨key, c₁⟩ _ => ?_
  refine (agrees_skipBlanks _).andThen ?_
  refine (agrees_expect "=" _).bind fun c₂ _ => ?_
  refine (agrees_skipBlanks _).andThen ((agrees_peek _).andThen ?_)
  dsimp only
  generalize c₂.skipBlanks = c₃
  cases hr : c₃.rest with
  | nil => exact agrees_fail _ _ _
  | cons q rest =>
    dsimp only [List.head?_cons, Option.map_some, Option.join_some]
    by_cases hq : q = '"' ∨ q = '\''
    · have hascii : q.toNat < 128 := by rcases hq with rfl | rfl <;> decide
      have hsize : 1 = size [q] := by simp [utf8Size_of_ascii hascii]
      rw [lead_of_ascii hascii]
      dsimp only
      rw [if_pos hq, if_pos hq]
      refine (agrees_advance (t := [q]) hr hsize).andThen ?_
      refine (agrees_takeUntil _ _ _).bind fun ⟨raw, c₄⟩ _ => ?_
      dsimp only [id]
      split
      · exact agrees_fail _ _ _
      · exact (Agrees.lift (decode_eq raw) _).andThen (.pure (_, _) _)
    · rw [if_neg hq]
      cases hlead : lead q with
      | none => exact agrees_fail _ _ _
      | some x =>
        obtain ⟨-, rfl⟩ := lead_eq_some_iff.1 hlead
        dsimp only
        rw [if_neg hq]
        exact agrees_fail _ _ _

/-- What neither ends a tag nor closes it is an attribute. -/
theorem Agrees.attributes_of_oneAttribute {tag : String} {found : List (String × String)} {b : Char}
    {view : δ → (List (String × String) × Bool) × Cursor} {y : Except Failure δ}
    (hr : c.skipBlanks.rest = b :: r) (hslash : b ≠ '/') (hend : b ≠ '>')
    (h : Agrees src (oneAttribute src >>= fun (key, value) =>
      match insertAttribute? (String.ofList key) (String.ofList value) found with
      | none => fail src (.duplicate (String.ofList key) tag)
      | some found => attributes src tag found) c.skipBlanks view y) :
    Agrees src (attributes src tag found) c view y := by
  have hne : lead b ≠ some '/' ∧ lead b ≠ some '>' := by simp [hslash, hend]
  rw [attributes]
  refine (agrees_skipBlanks c).andThen ((agrees_peek _).andThen ?_)
  rw [hr]
  dsimp only [List.head?_cons, Option.map_some]
  rw [if_neg hne.1, if_neg hne.2]
  exact h

theorem agrees_attributes (tag : String) (found : List (String × String)) (c : Cursor) :
    Agrees src (attributes src tag found) c (fun (found, closed, c) => ((found, closed), c))
      (Markup.attributes tag found c) := by
  fun_induction Markup.attributes tag found c with
  | case1 found c hr =>
    rw [attributes]
    refine (agrees_skipBlanks c).andThen ((agrees_peek _).andThen ?_)
    rw [hr]
    exact agrees_fail _ _ _
  | case2 found c rest hr =>
    rw [attributes]
    refine (agrees_skipBlanks c).andThen ((agrees_peek _).andThen ?_)
    rw [hr]
    refine (agrees_expect "/>" _).bind fun c₁ _ => ?_
    exact .pure (_, _) _
  | case3 found c rest hr =>
    rw [attributes]
    refine (agrees_skipBlanks c).andThen ((agrees_peek _).andThen ?_)
    rw [hr]
    refine (agrees_advance (t := ['>']) hr rfl).andThen ?_
    exact .pure (_, _) _
  | case4 found c b rest hr hslash hend e h =>
    refine .attributes_of_oneAttribute hr hslash hend ?_
    exact (agrees_oneAttribute _).bind_of_error h
  | case5 found c b rest hr hslash hend key value c' h hnone =>
    refine .attributes_of_oneAttribute hr hslash hend ((agrees_oneAttribute _).bind_of_ok h ?_)
    dsimp only
    rw [hnone]
    exact agrees_fail _ _ _
  | case6 found c b rest hr hslash hend key value c' h found' hsome ih =>
    refine .attributes_of_oneAttribute hr hslash hend ((agrees_oneAttribute _).bind_of_ok h ?_)
    dsimp only
    rw [hsome]
    exact ih

theorem agrees_openingTag (c : Cursor) :
    Agrees src (openingTag src) c (fun (f, closed, c) => ((f, closed), c))
      (Markup.openingTag c) := by
  refine (agrees_line c).andThen ?_
  refine (agrees_expect "<" c).bind fun c₁ _ => ?_
  refine (agrees_name c₁).bind fun ⟨tag, c₂⟩ _ => ?_
  refine (agrees_attributes _ _ _).bind fun ⟨found, closed, c₃⟩ _ => ?_
  exact .pure (_, _) c₃

theorem agrees_closingTag (tag : String) (c : Cursor) :
    Agrees src (closingTag src tag) c ((), ·) (Markup.closingTag tag c) := by
  refine (agrees_name c).bind fun ⟨found, c₁⟩ _ => ?_
  dsimp only [id]
  split
  · exact (agrees_skipBlanks _).andThen (agrees_expect ">" _)
  · exact agrees_fail _ _ _

/-! ### Elements -/

/-- What is read behind an element, which goes to the elements that are open around it. -/
def resumed (src : List Char) : List Frame → Node → Reading Node
  | [], n => return n
  | g :: outer, n => content src (g.addChild n) >>= resumed src outer

/-- A mark without a line break is passed. -/
theorem agrees_mark {mark : List Char} {n : Nat} (hmark : mark <+: c.rest) (hbreak : '\n' ∉ mark)
    (hn : n = size mark) :
    Agrees src (advance n) c id (.ok ((), ⟨c.rest.drop mark.length, c.line⟩)) := by
  obtain ⟨r, hr⟩ := hmark
  have hpast : c.past mark r = ⟨c.rest.drop mark.length, c.line⟩ := by
    rw [Cursor.past, List.count_eq_zero.2 hbreak, ← hr, List.drop_left]
    rfl
  rw [← hpast]
  exact agrees_advance hr.symm hn

/-- A run of text goes up to the next `<`, or to the end. -/
theorem getD_find (s : List Char) :
    (find ['<'] s).getD (size s) = size (s.takeWhile (· ≠ '<')) := by
  have hall : ∀ b : List Char, '<' ∉ b → ∀ x ∈ b, decide (x ≠ '<') = true := by
    intro b hb x hx
    simp only [ne_eq, decide_eq_true_eq]
    rintro rfl
    exact hb hx
  rw [find]
  cases hcut : cut? ['<'] s with
  | none =>
    rw [List.takeWhile_eq_self_iff.2 (hall s (cut?_eq_none_iff.1 hcut))]
    rfl
  | some q =>
    obtain ⟨before, rest⟩ := q
    rw [eq_of_cut? hcut, List.append_assoc,
      List.takeWhile_append_of_pos (hall _ (not_mem_of_cut? hcut))]
    simp

/-- What is left to be read of the elements that are open agrees with the stack of them. -/
theorem agrees_content (f : Frame) (outer : List Frame) (c : Cursor) :
    Agrees src (content src f >>= resumed src outer) c id (Markup.content f outer c) := by
  fun_induction Markup.content f outer c
  -- Both look at what begins here.
  all_goals
    rw [content, bind_assoc]
    refine (agrees_rest _).andThen ?_
    rw [‹Opening.of _ = _›]
    simp only [bind_assoc]
  case case1 f outer c ho => exact (agrees_fail id _ c).bind_of_error rfl
  case case2 f outer c ho e h =>
    refine (agrees_mark ((Opening.mark_prefix _).2.2.2 ho) (by decide) rfl).andThen ?_
    exact (agrees_closingTag _ _).bind_of_error h
  case case3 f c ho c' h =>
    refine (agrees_mark ((Opening.mark_prefix _).2.2.2 ho) (by decide) rfl).andThen ?_
    refine (agrees_closingTag _ _).bind_of_ok h ?_
    exact .pure _ c'
  case case4 f c ho c' h g outer ih =>
    refine (agrees_mark ((Opening.mark_prefix _).2.2.2 ho) (by decide) rfl).andThen ?_
    refine (agrees_closingTag _ _).bind_of_ok h ?_
    rw [pure_bind]
    exact ih
  case case5 f outer c ho e h => exact (agrees_takeUntil _ _ c).bind_of_error h
  case case6 f outer c ho s c' h ih => exact (agrees_takeUntil _ _ c).bind_of_ok h ih
  case case7 f outer c ho e h =>
    refine (agrees_mark ((Opening.mark_prefix _).2.2.1 ho) (by decide) rfl).andThen ?_
    exact (agrees_takeUntil _ _ _).bind_of_error h
  case case8 f outer c ho s c' h ih =>
    refine (agrees_mark ((Opening.mark_prefix _).2.2.1 ho) (by decide) rfl).andThen ?_
    exact (agrees_takeUntil _ _ _).bind_of_ok h ih
  case case9 f outer c ho e h => exact (agrees_takeUntil _ _ c).bind_of_error h
  case case10 f outer c ho s c' h ih => exact (agrees_takeUntil _ _ c).bind_of_ok h ih
  case case11 f outer c ho e h =>
    rw [element, bind_assoc]
    exact (agrees_openingTag c).bind_of_error h
  case case12 f outer c ho g c' h ih =>
    rw [element, bind_assoc]
    refine (agrees_openingTag c).bind_of_ok h ?_
    exact ih
  case case13 f outer c ho g closed c' h hopen ih =>
    rw [element, bind_assoc]
    refine (agrees_openingTag c).bind_of_ok h ?_
    dsimp only
    rw [if_neg hopen]
    exact ih
  case case14 f outer c ho ih =>
    have htext : c.rest = c.rest.takeWhile (· ≠ '<') ++ c.rest.dropWhile (· ≠ '<') :=
      List.takeWhile_append_dropWhile.symm
    have htake : take? c.rest (size (c.rest.takeWhile (· ≠ '<'))) =
        some (c.rest.takeWhile (· ≠ '<')) := by
      have := take?_append (c.rest.takeWhile (· ≠ '<')) (c.rest.dropWhile (· ≠ '<'))
      rwa [← htext] at this
    rw [getD_find]
    refine (Agrees.lift htake c).andThen ?_
    refine (Agrees.lift (decode_eq _) c).andThen ?_
    exact (agrees_advance htext rfl).andThen ih

theorem agrees_element (c : Cursor) :
    Agrees src (element src) c id (Markup.element c) := by
  rw [element]
  refine (agrees_openingTag c).bind fun ⟨f, closed, c₁⟩ _ => ?_
  dsimp only
  split
  · exact .pure _ _
  · simpa [resumed] using agrees_content f [] c₁

/-! ### Whole texts -/

/-- A reader has the answer that is known of a place, wherever it then stands. -/
def Gives (src : List Char) (m : Reading α) (c : Cursor) (r : Except Failure α) : Prop :=
  ∀ pos, At src pos c → ∃ next, m pos = some (r.map (·, next))

theorem Agrees.bind_gives {x : Except Failure β} {g : β → Except Failure γ}
    (hm : Agrees src m c view x)
    (hf : ∀ b, x = .ok b → Gives src (f (view b).1) (view b).2 (g b)) :
    Gives src (m >>= f) c (x >>= g) := by
  intro pos hpos
  have hrun := hm pos hpos
  have hstep : (m >>= f) pos = (m pos >>= fun p => f p.1 p.2 : ExceptT Failure Option _) := rfl
  rw [hstep]
  cases x with
  | error e =>
    refine ⟨pos, ?_⟩
    rw [hrun]
    rfl
  | ok b =>
    obtain ⟨next, hnext, hrun⟩ := hrun
    rw [hrun]
    exact hf b rfl next hnext

theorem Agrees.andThen_gives {a : α} {y : Except Failure γ} (hm : Agrees src m c id (.ok (a, c')))
    (hf : Gives src (f a) c' y) : Gives src (m >>= f) c y := by
  have := hm.bind_gives (g := fun _ => y) fun b hb => by cases hb; exact hf
  exact this

theorem gives_fail (fault : Fault) (c : Cursor) :
    Gives (α := α) src (fail src fault) c (c.fail fault) := by
  intro pos hpos
  exact ⟨pos, agrees_fail (α := α) (fun a => (a, c)) fault c pos hpos⟩

theorem gives_document (s : List Char) : Gives s (document s) (.start s) (Markup.document s) := by
  refine (agrees_skipAside _).bind_gives fun c₁ _ => (agrees_atEnd c₁).andThen_gives ?_
  cases h₁ : c₁.rest.isEmpty with
  | true => exact gives_fail _ c₁
  | false =>
    refine (agrees_element c₁).bind_gives fun ⟨root, c₂⟩ _ => ?_
    refine (agrees_skipAside c₂).bind_gives fun c₃ _ => (agrees_atEnd c₃).andThen_gives ?_
    split
    · exact fun pos _ => ⟨pos, rfl⟩
    · exact gives_fail _ c₃

end Agrees

theorem read_eq (source : String) (s : List Char) :
    read source s = some (Markup.read source s) := by
  obtain ⟨next, hrun⟩ := gives_document s 0 ⟨[], rfl, rfl, rfl⟩
  have hrun : ((document s).run 0).run = _ := hrun
  unfold read Markup.read
  rw [hrun]
  cases Markup.document s <;> rfl

end Progression.Bytes
