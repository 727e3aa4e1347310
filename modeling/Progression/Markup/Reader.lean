import Progression.Error
import Progression.Markup.Cursor
import Progression.Markup.Node
import Progression.Markup.Reference

/-!
Reading markup: one root element with nested elements, attributes in either kind of quotes,
comments, processing instructions, sections of plain character data and references. The reader
keeps the elements that are still open on a stack.
-/

namespace Progression.Markup

open Progression.Text

/-- What begins at a place in the content of an element. -/
inductive Opening where
  | ending
  | closing
  | comment
  | data
  | instruction
  | element
  | text
  deriving DecidableEq, Repr

def Opening.of : List Char → Opening
  | [] => .ending
  | c :: cs =>
    if c ≠ '<' then .text
    else if (after? ['/'] cs).isSome then .closing
    else if (after? "!--".toList cs).isSome then .comment
    else if (after? "![CDATA[".toList cs).isSome then .data
    else if (after? ['?'] cs).isSome then .instruction
    else .element

theorem Opening.exists_of_text {s : List Char} (h : Opening.of s = .text) :
    ∃ c cs, s = c :: cs ∧ c ≠ '<' := by
  cases s with
  | nil => cases h
  | cons c cs =>
    refine ⟨c, cs, rfl, fun hc => ?_⟩
    simp only [Opening.of, hc] at h
    split at h <;> first | contradiction | skip
    repeat (split at h <;> first | contradiction | skip)

/-! ### Around the root -/

/-- What begins outside the root, if it is to be passed over: the mark that ends it, and what it
is. -/
def Opening.aside? (s : List Char) : Option (String × String) :=
  match Opening.of s with
  | .instruction => some ("?>", "processing instruction")
  | .comment => some ("-->", "comment")
  | _ => if (after? "<!".toList s).isSome then some (">", "declaration") else none

/-- The place after blanks, comments, processing instructions and declarations. -/
def skipAside (c : Cursor) : Except Failure Cursor :=
  match Opening.aside? c.skipBlanks.rest with
  | none => .ok c.skipBlanks
  | some (mark, what) =>
    match _h : c.skipBlanks.takeUntil mark what with
    | .error e => .error e
    | .ok (_, c') => if _hm : mark.toList = [] then .ok c' else skipAside c'
termination_by c.rest.length
decreasing_by
  have h1 := Cursor.length_of_takeUntil _h
  have h2 := Cursor.length_skipBlanks_le (c := c)
  have h3 := List.length_pos_iff.2 _hm
  omega

/-! ### Tags -/

/-- An attribute: its name, its value with references decoded, and the place after it. -/
def oneAttribute (c : Cursor) : Except Failure (List Char × List Char × Cursor) := do
  let (key, c) ← c.name
  let c ← c.skipBlanks.expect "="
  let c := c.skipBlanks
  match c.rest with
  | q :: rest =>
    if q = '"' ∨ q = '\'' then
      let (value, c) ← (c.past [q] rest).takeUntil (String.ofList [q]) "attribute value"
      if value.contains '<' then c.fail (.lessThan (String.ofList key))
      else return (key, decode value, c)
    else c.fail (.unquoted (String.ofList key))
  | [] => c.fail (.unquoted (String.ofList key))

theorem length_of_oneAttribute {c c' : Cursor} {key value : List Char}
    (h : oneAttribute c = .ok (key, value, c')) : c'.rest.length < c.rest.length := by
  simp only [oneAttribute, bind, Except.bind] at h
  split at h
  · cases h
  next p hp =>
  obtain ⟨k, c1⟩ := p
  have h1 := Cursor.length_of_name hp
  have h2 := Cursor.length_skipBlanks_le (c := c1)
  simp only at h
  split at h
  · cases h
  next c2 hc2 =>
  have h3 := Cursor.length_of_expect hc2
  have h4 := Cursor.length_skipBlanks_le (c := c2)
  split at h
  · next q rest hr =>
    rw [hr] at h4
    simp only [List.length_cons] at h4
    split at h
    · split at h
      · cases h
      next p hp =>
      obtain ⟨raw, c3⟩ := p
      have h5 := Cursor.length_of_takeUntil hp
      simp only [Cursor.past] at h5
      simp only at h
      split at h
      · cases h
      · cases h
        omega
    · cases h
  · cases h

/-- The attributes of a tag, whether the tag closes itself, and the place after the tag. -/
def attributes (tag : String) (found : List (String × String)) (c : Cursor) :
    Except Failure (List (String × String) × Bool × Cursor) :=
  match c.skipBlanks.rest with
  | [] => c.skipBlanks.fail (.openTag tag)
  | b :: rest =>
    if b = '/' then do
      let c ← c.skipBlanks.expect "/>"
      return (found, true, c)
    else if b = '>' then .ok (found, false, c.skipBlanks.past ['>'] rest)
    else
      match _h : oneAttribute c.skipBlanks with
      | .error e => .error e
      | .ok (key, value, c') =>
        match insertAttribute? (String.ofList key) (String.ofList value) found with
        | none => c'.fail (.duplicate (String.ofList key) tag)
        | some found => attributes tag found c'
termination_by c.rest.length
decreasing_by
  have h1 := length_of_oneAttribute _h
  have h2 := Cursor.length_skipBlanks_le (c := c)
  omega

/-- An element that is still open, its children in reverse. -/
structure Frame where
  tag : String
  attributes : List (String × String)
  line : Nat
  text : List Char := []
  children : List Node := []

namespace Frame

def addChild (f : Frame) (n : Node) : Frame := { f with children := n :: f.children }

def addText (f : Frame) (s : List Char) : Frame := { f with text := f.text ++ s }

/-- The finished element. Text is trimmed. -/
def close (f : Frame) : Node :=
  { tag := f.tag, attributes := f.attributes, line := f.line,
    text := String.ofList (trim f.text), children := f.children.reverse }

end Frame

/-- An opening tag, which must stand here: the element, whether the tag closes it at once, and
the place after the tag. -/
def openingTag (c : Cursor) : Except Failure (Frame × Bool × Cursor) := do
  let line := c.line
  let c ← c.expect "<"
  let (tag, c) ← c.name
  let tag := String.ofList tag
  let (attributes, closed, c) ← attributes tag [] c
  return ({ tag, attributes, line }, closed, c)

/-- The rest of a closing tag after its `</`. -/
def closingTag (tag : String) (c : Cursor) : Except Failure Cursor := do
  let (found, c) ← c.name
  if String.ofList found = tag then c.skipBlanks.expect ">"
  else c.fail (.mismatched (String.ofList found) tag)

theorem length_of_attributes {tag : String} {found : List (String × String)} {c : Cursor}
    {r : List (String × String) × Bool × Cursor} (h : attributes tag found c = .ok r) :
    r.2.2.rest.length < c.rest.length := by
  fun_induction attributes tag found c with
  | case1 => cases h
  | case2 found c rest hr =>
    simp only [bind, Except.bind] at h
    split at h
    · cases h
    next c' hc =>
    cases h
    have h1 := Cursor.length_of_expect hc
    have h2 := Cursor.length_skipBlanks_le (c := c)
    have h3 : "/>".toList.length = 2 := rfl
    simp only
    omega
  | case3 found c rest hr =>
    cases h
    have h2 := Cursor.length_skipBlanks_le (c := c)
    rw [hr] at h2
    exact h2
  | case4 => cases h
  | case5 => cases h
  | case6 found c b rest hr _ _ key value c' ha found' hf ih =>
    have := ih h
    have h1 := length_of_oneAttribute ha
    have h2 := Cursor.length_skipBlanks_le (c := c)
    omega

theorem length_of_openingTag {c c' : Cursor} {f : Frame} {closed : Bool}
    (h : openingTag c = .ok (f, closed, c')) : c'.rest.length < c.rest.length := by
  simp only [openingTag, bind, Except.bind] at h
  split at h
  · cases h
  next c1 h1 =>
  split at h
  · cases h
  next p h2 =>
  obtain ⟨tag, c2⟩ := p
  simp only at h
  split at h
  · cases h
  next r h3 =>
  obtain ⟨found, b, c3⟩ := r
  cases h
  have := Cursor.length_of_expect h1
  have := Cursor.length_of_name h2
  have : c3.rest.length < c2.rest.length := length_of_attributes h3
  show c3.rest.length < c.rest.length
  omega

theorem length_of_closingTag {tag : String} {c c' : Cursor} (h : closingTag tag c = .ok c') :
    c'.rest.length < c.rest.length := by
  simp only [closingTag, bind, Except.bind] at h
  split at h
  · cases h
  next p h1 =>
  obtain ⟨found, c1⟩ := p
  simp only at h
  split at h
  · have := Cursor.length_of_name h1
    have := Cursor.length_of_expect h
    have := Cursor.length_skipBlanks_le (c := c1)
    omega
  · cases h

/-! ### Content -/

/-- The element on top of the stack of open elements, read to its end, and so on down the stack;
the answer is the element at the bottom and the place after it. -/
def content (f : Frame) (outer : List Frame) (c : Cursor) : Except Failure (Node × Cursor) :=
  match _h : Opening.of c.rest with
  | .ending => c.fail (.unclosed f.tag)
  | .closing =>
    match _h1 : closingTag f.tag ⟨c.rest.drop 2, c.line⟩ with
    | .error e => .error e
    | .ok c' =>
      match outer with
      | [] => .ok (f.close, c')
      | g :: outer => content (g.addChild f.close) outer c'
  | .comment =>
    match _h1 : c.takeUntil "-->" "comment" with
    | .error e => .error e
    | .ok (_, c') => content f outer c'
  | .data =>
    match _h1 : (⟨c.rest.drop 9, c.line⟩ : Cursor).takeUntil "]]>" "CDATA section" with
    | .error e => .error e
    | .ok (s, c') => content (f.addText s) outer c'
  | .instruction =>
    match _h1 : c.takeUntil "?>" "processing instruction" with
    | .error e => .error e
    | .ok (_, c') => content f outer c'
  | .element =>
    match _h1 : openingTag c with
    | .error e => .error e
    | .ok (g, closed, c') =>
      if closed then content (f.addChild g.close) outer c' else content g (f :: outer) c'
  | .text =>
    content (f.addText (decode (c.rest.takeWhile (· ≠ '<')))) outer (c.skipWhile (· ≠ '<'))
termination_by c.rest.length
decreasing_by
  · have h1 := length_of_closingTag _h1
    simp only [List.length_drop] at h1
    omega
  · have h1 := Cursor.length_of_takeUntil _h1
    have h3 : "-->".toList.length = 3 := rfl
    omega
  · have h1 := Cursor.length_of_takeUntil _h1
    have h3 : "]]>".toList.length = 3 := rfl
    simp only [List.length_drop] at h1
    omega
  · have h1 := Cursor.length_of_takeUntil _h1
    have h3 : "?>".toList.length = 2 := rfl
    omega
  · exact length_of_openingTag _h1
  · exact length_of_openingTag _h1
  · obtain ⟨b, cs, hb, hne⟩ := Opening.exists_of_text _h
    have := length_dropWhile_le (fun x => decide (x ≠ '<')) cs
    simp only [Cursor.skipWhile, Cursor.past, hb, List.length_cons, List.dropWhile_cons, hne,
      ne_eq, not_false_eq_true, decide_true, if_true] at *
    omega

/-- The element that begins here, and the place after it. -/
def element (c : Cursor) : Except Failure (Node × Cursor) := do
  let (f, closed, c) ← openingTag c
  if closed then return (f.close, c) else content f [] c

def document (s : List Char) : Except Failure Node := do
  let c ← skipAside (.start s)
  if c.rest.isEmpty then c.fail .noRoot
  let (root, c) ← element c
  let c ← skipAside c
  if c.rest.isEmpty then return root else c.fail .afterRoot

/-- The root of a text that comes from a source. -/
def read (source : String) (s : List Char) : Except Error Node :=
  match document s with
  | .ok root => .ok root
  | .error f => .error (.parse source f.line f.fault.message)

end Progression.Markup
