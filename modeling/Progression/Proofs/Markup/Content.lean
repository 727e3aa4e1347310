import Progression.Proofs.Markup.Aside

/-!
Elements and documents as they are written, and that reading takes every writing back. What an
element holds is written as a sequence of pieces: runs of text, sections of plain character data,
children, and pieces that say nothing. The reader is followed piece by piece, whatever stands
behind the piece.
-/

namespace Progression.Markup

open Progression.Text Cursor

/-! ### Writings -/

/-- A comment or a processing instruction. -/
inductive AsideText : List Char → Prop
  | comment {body : List Char} : ¬ "-->".toList <:+: body → ¬ ">".toList <+: body →
    ¬ "->".toList <+: body → AsideText ("<!--".toList ++ (body ++ "-->".toList))
  | instruction {body : List Char} : ¬ "?>".toList <:+: body → ¬ ">".toList <+: body →
    AsideText ("<?".toList ++ (body ++ "?>".toList))

mutual

/-- An element as it is written, from a line on. -/
inductive ElementText : Nat → Node → List Char → Prop
  | closed {line : Nat} {n : Node} {s : List Char} : HeadText n s → n.line = line → n.text = "" →
    n.children = [] → ElementText line n (s ++ ['/', '>'])
  | opened {line : Nat} {n : Node} {s t body p : List Char} : HeadText n s → n.line = line →
    ContentText (line + (s ++ ['>']).count '\n') t n.children body → n.text.toList = trim t →
    Spaces p →
    ElementText line n (s ++ '>' :: (body ++ '<' :: '/' :: (n.tag.toList ++ (p ++ ['>']))))

/-- The content of an element as it is written, from a line on: its text before it is trimmed, and
its children. -/
inductive ContentText : Nat → List Char → List Node → List Char → Prop
  | nil {line : Nat} : ContentText line [] [] []
  | text {line : Nat} {run raw t s : List Char} {ns : List Node} : Encoded ['<'] run raw →
    ContentText (line + raw.count '\n') t ns s → ContentText line (run ++ t) ns (raw ++ s)
  | data {line : Nat} {body raw t s : List Char} {ns : List Node} : ¬ "]]>".toList <:+: body →
    raw = "<![CDATA[".toList ++ (body ++ "]]>".toList) →
    ContentText (line + raw.count '\n') t ns s → ContentText line (body ++ t) ns (raw ++ s)
  | aside {line : Nat} {a t s : List Char} {ns : List Node} : AsideText a →
    ContentText (line + a.count '\n') t ns s → ContentText line t ns (a ++ s)
  | child {line : Nat} {n : Node} {raw t s : List Char} {ns : List Node} :
    ElementText line n raw → ContentText (line + raw.count '\n') t ns s →
    ContentText line t (n :: ns) (raw ++ s)

end

/-- What may stand before and after the root: blanks, comments, processing instructions and
declarations. -/
inductive AroundText : List Char → Prop
  | blanks {p : List Char} : Spaces p → AroundText p
  | aside {p a s : List Char} : Spaces p → AsideText a → AroundText s → AroundText (p ++ (a ++ s))
  | declaration {p d s : List Char} : Spaces p → '>' ∉ d → ¬ "--".toList <+: d → AroundText s →
    AroundText (p ++ ("<!".toList ++ (d ++ '>' :: s)))

/-- A document as it is written. -/
inductive DocumentText (n : Node) : List Char → Prop
  | mk {a s b : List Char} : AroundText a → ElementText (1 + a.count '\n') n s → AroundText b →
    DocumentText n (a ++ (s ++ b))

/-! ### Pieces that say nothing -/

/-- The end of a comment is found behind its body. -/
theorem cut?_comment {body : List Char} (h1 : ¬ "-->".toList <:+: body)
    (h2 : ¬ ">".toList <+: body) (h3 : ¬ "->".toList <+: body) (r : List Char) :
    cut? "-->".toList ("<!--".toList ++ (body ++ "-->".toList) ++ r) =
      some ("<!--".toList ++ body, r) := by
  have hn : ¬ ['-', '-'] ++ ['>'] <:+: "<!--".toList ++ body := by
    simp only [String.reduceToList, List.cons_append, List.nil_append, List.infix_cons_iff]
    simp
    exact ⟨h2, h3, h1⟩
  have hcut := cut?_append (by decide) hn r
  simpa using hcut

/-- The end of a processing instruction is found behind its body. -/
theorem cut?_instruction {body : List Char} (h1 : ¬ "?>".toList <:+: body)
    (h2 : ¬ ">".toList <+: body) (r : List Char) :
    cut? "?>".toList ("<?".toList ++ (body ++ "?>".toList) ++ r) =
      some ("<?".toList ++ body, r) := by
  have hn : ¬ ['?'] ++ ['>'] <:+: "<?".toList ++ body := by
    simp [List.infix_cons_iff]
    exact ⟨h2, h1⟩
  have hcut := cut?_append (by decide) hn r
  simpa using hcut

theorem AsideText.form {a : List Char} (h : AsideText a) : AsideForm a := by
  cases h with
  | @comment body h1 h2 h3 =>
    have he := endsFirst_of_cut? (cut?_comment h1 h2 h3 [])
    rw [List.append_assoc] at he
    exact .comment (List.prefix_append _ _) he
  | @instruction body h1 h2 =>
    have he := endsFirst_of_cut? (cut?_instruction h1 h2 [])
    rw [List.append_assoc] at he
    exact .instruction (List.prefix_append _ _) he

theorem AroundText.form {s : List Char} (h : AroundText s) : AroundForm s := by
  induction h with
  | @blanks p hp =>
    rw [← List.append_nil p]
    exact .blanks hp .nil
  | aside hp ha _ ih => exact .blanks hp (.aside ha.form ih)
  | @declaration p d s hp hd hdd _ ih =>
    have hn : ¬ "<!--".toList <+: "<!".toList ++ d ++ ">".toList := by
      rintro ⟨t, ht⟩
      match d with
      | [] => simp at ht
      | [x] => simp at ht
      | x :: y :: d =>
        simp at ht
        exact hdd ⟨d, by rw [← ht.1, ← ht.2.1]; rfl⟩
    have hcut := cut?_singleton (q := '>') (s := "<!".toList ++ d) (by simpa using hd) []
    have hpass := AroundForm.declaration ⟨d ++ ">".toList, by simp⟩ hn (endsFirst_of_cut? hcut) ih
    exact .blanks hp (by simpa using hpass)

/-! ### Content -/

/-- The reading goes on with an element that is read to its end: it is the answer, or a child of
the element around it. -/
def resume : List Frame → Node → Cursor → Except Failure (Node × Cursor)
  | [], n, c => .ok (n, c)
  | g :: outer, n, c => content (g.addChild n) outer c

section Steps

variable {f : Frame} {outer : List Frame} {c c' : Cursor}

theorem content_ending (ho : Opening.of c.rest = .ending) :
    content f outer c = c.fail (.unclosed f.tag) := by
  rw [content]
  split <;> rename_i h' <;> rw [ho] at h' <;> cases h'

theorem content_closing (ho : Opening.of c.rest = .closing)
    (h : closingTag f.tag ⟨c.rest.drop 2, c.line⟩ = .ok c') :
    content f outer c = resume outer f.close c' := by
  rw [content]
  split <;> rename_i h' <;> rw [ho] at h' <;> cases h'
  split
  · next he => rw [h] at he; cases he
  · next he =>
    rw [h] at he
    cases he
    cases outer <;> rfl

theorem content_comment {s : List Char} (ho : Opening.of c.rest = .comment)
    (h : c.takeUntil "-->" "comment" = .ok (s, c')) : content f outer c = content f outer c' := by
  rw [content]
  split <;> rename_i h' <;> rw [ho] at h' <;> cases h'
  split
  · next he => rw [h] at he; cases he
  · next he => rw [h] at he; cases he; rfl

theorem content_instruction {s : List Char} (ho : Opening.of c.rest = .instruction)
    (h : c.takeUntil "?>" "processing instruction" = .ok (s, c')) :
    content f outer c = content f outer c' := by
  rw [content]
  split <;> rename_i h' <;> rw [ho] at h' <;> cases h'
  split
  · next he => rw [h] at he; cases he
  · next he => rw [h] at he; cases he; rfl

theorem content_aside {a r : List Char} (ha : AsideForm a) (hc : c.rest = a ++ r) :
    content f outer c = content f outer (c.past a r) := by
  rcases ha.passed hc with ⟨ho, s, h⟩ | ⟨ho, s, h⟩
  · exact content_comment ho h
  · exact content_instruction ho h

theorem content_data {s : List Char} (ho : Opening.of c.rest = .data)
    (h : (⟨c.rest.drop 9, c.line⟩ : Cursor).takeUntil "]]>" "CDATA section" = .ok (s, c')) :
    content f outer c = content (f.addText s) outer c' := by
  rw [content]
  split <;> rename_i h' <;> rw [ho] at h' <;> cases h'
  split
  · next he => rw [h] at he; cases he
  · next he => rw [h] at he; cases he; rfl

theorem content_element {g : Frame} {b : Bool} (ho : Opening.of c.rest = .element)
    (h : openingTag c = .ok (g, b, c')) : content f outer c =
      if b then content (f.addChild g.close) outer c' else content g (f :: outer) c' := by
  rw [content]
  split <;> rename_i h' <;> rw [ho] at h' <;> cases h'
  split
  · next he => rw [h] at he; cases he
  · next he => rw [h] at he; cases he; rfl

theorem content_text (ho : Opening.of c.rest = .text) : content f outer c =
    content (f.addText (decode (c.rest.takeWhile (· ≠ '<')))) outer (c.skipWhile (· ≠ '<')) := by
  rw [content]
  split <;> rename_i h' <;> rw [ho] at h' <;> cases h'

/-- A run of text is passed if the text behind it does not change what it says. -/
theorem content_run_of_decode {run raw r : List Char} (hlt : '<' ∉ raw)
    (hrun : decode (raw ++ r.takeWhile (· ≠ '<')) = run ++ decode (r.takeWhile (· ≠ '<')))
    (hc : c.rest = raw ++ r) :
    content f outer c = content (f.addText run) outer (c.past raw r) := by
  have hpos : ∀ x ∈ raw, decide (x ≠ '<') = true := by
    intro x hx
    simp only [ne_eq, decide_eq_true_eq]
    rintro rfl
    exact hlt hx
  cases raw with
  | nil =>
    have hnil : run = [] := by simpa using hrun
    rw [List.nil_append] at hc
    rw [← hc, past_nil, hnil]
    simp [Frame.addText]
  | cons x raw =>
    have hx : x ≠ '<' := by simpa using hpos x (by simp)
    have ho : Opening.of c.rest = .text := by rw [hc]; simp [Opening.of, hx]
    have htext : decode (c.rest.takeWhile (· ≠ '<')) = run ++ decode (r.takeWhile (· ≠ '<')) := by
      rw [hc, List.takeWhile_append_of_pos hpos, hrun]
    have hskip : c.skipWhile (· ≠ '<') = (c.past (x :: raw) r).skipWhile (· ≠ '<') := by
      unfold skipWhile
      rw [past_past, hc, List.takeWhile_append_of_pos hpos, List.dropWhile_append_of_pos hpos]
      rfl
    rw [content_text ho, htext, hskip]
    -- What stands behind the run goes on with it, or begins something else.
    by_cases hr : Opening.of r = .text
    · rw [content_text (c := c.past (x :: raw) r) hr]
      simp [Frame.addText]
    · have hlt : ∀ y ∈ r.head?, decide (y ≠ '<') = false := by
        intro y hy
        obtain ⟨r, rfl⟩ := List.head?_eq_some_iff.1 hy
        by_contra hne
        have hne : y ≠ '<' := by simpa using hne
        exact hr (by simp [Opening.of, hne])
      have ht : r.takeWhile (· ≠ '<') = [] := by
        cases r with
        | nil => rfl
        | cons y r => simpa using hlt y rfl
      rw [skipWhile_append (s := []) rfl (by simp) hlt, ht]
      simp [decode]

/-- A run of text is passed, also if more text stands behind it. -/
theorem content_run {run raw r : List Char} (h : Encoded ['<'] run raw) (hc : c.rest = raw ++ r) :
    content f outer c = content (f.addText run) outer (c.past raw r) :=
  content_run_of_decode (h.not_mem (by simp) rfl (by decide)) (h.decode_append _) hc

/-- A section of plain character data is passed, and is text as it stands. -/
theorem content_section {body raw r : List Char} (hb : ¬ "]]>".toList <:+: body)
    (hraw : raw = "<![CDATA[".toList ++ (body ++ "]]>".toList)) (hc : c.rest = raw ++ r) :
    content f outer c = content (f.addText body) outer (c.past raw r) := by
  have ho : Opening.of c.rest = .data := by rw [hc, hraw]; simp [Opening.of, after?]
  have hcut := cut?_append (m := [']', ']']) (x := '>') (by decide) hb r
  have hrest : cut? "]]>".toList (c.past "<![CDATA[".toList (c.rest.drop 9)).rest =
      some (body, r) := by
    rw [rest_past, hc, hraw]
    simpa using hcut
  have ht := @takeUntil_append _ "]]>" "CDATA section" body r hrest
  rw [content_data ho ht, past_past, hraw]

end Steps

/-! ### Elements -/

/-- An element with more text, and more children behind those it has. -/
def Frame.add (f : Frame) (t : List Char) (ns : List Node) : Frame :=
  { f with text := f.text ++ t, children := ns.reverse ++ f.children }

theorem opening_element {x : Char} (hx : isNamePart x = true) (s : List Char) :
    Opening.of ('<' :: x :: s) = .element := by
  have h1 : '/' ≠ x := by rintro rfl; cases hx
  have h2 : '!' ≠ x := by rintro rfl; cases hx
  have h3 : '?' ≠ x := by rintro rfl; cases hx
  simp [Opening.of, after?, h1, h2, h3]

@[simp] theorem Frame.add_nil (f : Frame) : f.add [] [] = f := by simp [Frame.add]

@[simp] theorem Frame.add_tag (f : Frame) (t : List Char) (ns : List Node) :
    (f.add t ns).tag = f.tag := rfl

@[simp] theorem Frame.add_addText (f : Frame) (t u : List Char) (ns : List Node) :
    (f.addText t).add u ns = f.add (t ++ u) ns := by
  simp [Frame.add, Frame.addText]

@[simp] theorem Frame.add_addChild (f : Frame) (n : Node) (t : List Char) (ns : List Node) :
    (f.addChild n).add t ns = f.add t (n :: ns) := by
  simp [Frame.add, Frame.addChild]

/-- An element with the content it has is finished. -/
theorem close_add {n : Node} {t : List Char} (ht : n.text.toList = trim t) :
    (n.frame.add t n.children).close = n := by
  cases n
  simp [Frame.close, Frame.add, Node.frame, ← ht]

theorem close_frame {n : Node} (ht : n.text = "") (hn : n.children = []) : n.frame.close = n := by
  have h := close_add (n := n) (t := []) (by rw [ht]; rfl)
  rwa [hn, Frame.add_nil] at h

/-- Content is read and added to the element on top, whatever stands behind it. -/
def ReadsContent (line : Nat) (t : List Char) (ns : List Node) (s : List Char) : Prop :=
  ∀ (f : Frame) (outer : List Frame) (c : Cursor) (r : List Char), c.rest = s ++ r →
    c.line = line → content f outer c = content (f.add t ns) outer (c.past s r)

/-- Behind its opening tag, an element is read to its end. -/
theorem content_frame {n : Node} {t body p r : List Char} {outer : List Frame} {c : Cursor}
    (hn : IsName n.tag.toList) (ht : n.text.toList = trim t) (hp : Spaces p)
    (hb : content n.frame outer c = content (n.frame.add t n.children) outer
      (c.past body ('<' :: '/' :: (n.tag.toList ++ (p ++ '>' :: r))))) :
    content n.frame outer c =
      resume outer n (c.past (body ++ '<' :: '/' :: (n.tag.toList ++ (p ++ ['>']))) r) := by
  have ho : Opening.of ('<' :: '/' :: (n.tag.toList ++ (p ++ '>' :: r))) = .closing := by
    simp [Opening.of, after?]
  have hcl := closingTag_append (r := r) hn hp
    (c := (c.past body ('<' :: '/' :: (n.tag.toList ++ (p ++ '>' :: r)))).past ['<', '/'] _) rfl
  rw [hb, content_closing ho hcl, close_add ht]
  simp

/-- An element begins at a place and is read up to another: its tag closes itself, or it is read
to its end behind its opening tag, whatever is open around it. -/
def IsRead (n : Node) (c c' : Cursor) : Prop :=
  (openingTag c = .ok (n.frame, true, c') ∧ n.frame.close = n) ∨
    ∃ c₁, openingTag c = .ok (n.frame, false, c₁) ∧
      ∀ outer, content n.frame outer c₁ = resume outer n c'

section IsRead

variable {n : Node} {s t body p r : List Char} {c c' : Cursor}

theorem IsRead.exists_cons (h : IsRead n c c') :
    ∃ x s, c.rest = '<' :: x :: s ∧ isNamePart x = true := by
  rcases h with ⟨h, -⟩ | ⟨c₁, h, -⟩ <;> exact exists_cons_of_openingTag h

/-- A child is read and added. -/
theorem IsRead.content (h : IsRead n c c') (f : Frame) (outer : List Frame) :
    content f outer c = content (f.addChild n) outer c' := by
  obtain ⟨x, t, hx, hxn⟩ := h.exists_cons
  have ho : Opening.of c.rest = .element := hx ▸ opening_element hxn t
  rcases h with ⟨h, hclose⟩ | ⟨c₁, h, hrest⟩
  · rw [content_element ho h, if_pos rfl, hclose]
  · rw [content_element ho h, if_neg Bool.false_ne_true, hrest]
    rfl

/-- The root is read. -/
theorem IsRead.element (h : IsRead n c c') : element c = .ok (n, c') := by
  rcases h with ⟨h, hclose⟩ | ⟨c₁, h, hrest⟩
  · refine Except.bind_eq_ok.2 ⟨_, h, ?_⟩
    simp only [if_true, hclose]
    rfl
  · refine Except.bind_eq_ok.2 ⟨_, h, ?_⟩
    simp only [Bool.false_eq_true, if_false, hrest]
    rfl

theorem isRead_of_closed (hs : HeadForm n.tag n.attributes s) (hl : n.line = c.line)
    (ht : n.text = "") (hn : n.children = []) (hc : c.rest = s ++ ['/', '>'] ++ r) :
    IsRead n c (c.past (s ++ ['/', '>']) r) := by
  have htag := openingTag_of_headForm hs .closed (by rw [hc, List.append_assoc])
  refine .inl ⟨?_, close_frame ht hn⟩
  rw [htag, Node.frame, hl]

theorem isRead_of_opened (hs : HeadForm n.tag n.attributes s) (hl : n.line = c.line)
    (ht : n.text.toList = trim t) (hp : Spaces p)
    (hb : ∀ (outer : List Frame) (d : Cursor) (u : List Char), (∀ x ∈ u.head?, x = '<') →
      d.rest = body ++ u → d.line = c.line + (s ++ ['>']).count '\n' →
      Markup.content n.frame outer d =
        Markup.content (n.frame.add t n.children) outer (d.past body u))
    (hc : c.rest = s ++ '>' :: (body ++ '<' :: '/' :: (n.tag.toList ++ (p ++ ['>']))) ++ r) :
    IsRead n c
      (c.past (s ++ '>' :: (body ++ '<' :: '/' :: (n.tag.toList ++ (p ++ ['>'])))) r) := by
  have htag := openingTag_of_headForm hs .opened (by rw [hc, List.append_assoc]; rfl)
  refine .inr ⟨_, by rw [htag, Node.frame, hl], fun outer => ?_⟩
  rw [content_frame (r := r) hs.isName ht hp (hb outer _ _ (by simp) (by simp) rfl)]
  simp

end IsRead

mutual

/-- An element that is written is read, whatever stands behind it. -/
theorem isRead_of_elementText {line : Nat} {n : Node} {s : List Char} :
    ElementText line n s → ∀ (c : Cursor) (r : List Char), c.rest = s ++ r → c.line = line →
      IsRead n c (c.past s r)
  | .closed hh hl ht hn => by
    intro c r hc hcl
    exact isRead_of_closed hh.form (hl.trans hcl.symm) ht hn hc
  | .opened hh hl hb ht hp => by
    intro c r hc hcl
    refine isRead_of_opened hh.form (hl.trans hcl.symm) ht hp ?_ hc
    intro outer d u _ hd hdl
    exact content_of_contentText hb _ outer d u hd (by rw [hdl, hcl])

theorem content_of_contentText {line : Nat} {t : List Char} {ns : List Node} {s : List Char} :
    ContentText line t ns s → ReadsContent line t ns s
  | .nil => by
    intro f outer c r hc _
    rw [List.nil_append] at hc
    rw [← hc, past_nil, Frame.add_nil]
  | .text he hs => by
    intro f outer c r hc hl
    rw [List.append_assoc] at hc
    rw [content_run he hc, content_of_contentText hs _ _ _ r rfl (by rw [← hl]; rfl), past_past,
      Frame.add_addText]
  | @ContentText.data _ _ raw _ s _ hb hraw hs => by
    intro f outer c r hc hl
    rw [List.append_assoc] at hc
    rw [content_section hb hraw hc, content_of_contentText hs _ _ _ r rfl (by rw [← hl]; rfl),
      past_past, Frame.add_addText]
  | @ContentText.aside _ a _ s _ ha hs => by
    intro f outer c r hc hl
    rw [List.append_assoc] at hc
    rw [content_aside ha.form hc, content_of_contentText hs _ _ _ r rfl (by rw [← hl]; rfl),
      past_past]
  | .child he hs => by
    intro f outer c r hc hl
    rw [List.append_assoc] at hc
    rw [(isRead_of_elementText he _ _ hc hl).content,
      content_of_contentText hs _ _ _ r rfl (by rw [← hl]; rfl), past_past, Frame.add_addChild]

end

/-! ### Documents -/

/-- Nothing is passed over where an element begins. -/
theorem aside?_element {x : Char} (hx : isNamePart x = true) (s : List Char) :
    Opening.aside? ('<' :: x :: s) = none := by
  have h : '!' ≠ x := by rintro rfl; cases hx
  unfold Opening.aside?
  rw [opening_element hx]
  simp [after?, h]

/-- Behind what may stand before it, the root is read, and nothing else may stand behind it. -/
theorem document_of_isRead {n : Node} {a s : List Char} {c' : Cursor} (ha : AroundForm a)
    (hn : IsRead n ((Cursor.start (a ++ s)).past a s) c') :
    document (a ++ s) =
      skipAside c' >>= fun c => if c.rest.isEmpty then .ok n else c.fail .afterRoot := by
  obtain ⟨x, s', hx, hxn⟩ := hn.exists_cons
  rw [rest_past] at hx
  have h₁ := skipAside_append (c := .start (a ++ s)) ha
    (by rw [hx]; exact aside?_element hxn _) (by rw [hx]; simp; rfl) rfl
  have hne : ¬ ((Cursor.start (a ++ s)).past a s).rest.isEmpty = true := by simp [hx]
  unfold document
  rw [h₁]
  simp only [bind, Except.bind]
  rw [if_neg hne, hn.element]
  rfl

/-- Reading takes every writing of a document back. -/
theorem document_of_documentText {n : Node} {s : List Char} (h : DocumentText n s) :
    document s = .ok n := by
  cases h with
  | @mk a s b ha hs hb =>
    have hroot := isRead_of_elementText hs ((Cursor.start (a ++ (s ++ b))).past a (s ++ b)) b rfl
      rfl
    have hend := skipAside_append (c := ((Cursor.start (a ++ (s ++ b))).past a (s ++ b)).past s b)
      (r := []) hb.form rfl (by simp) (by simp)
    rw [document_of_isRead ha.form hroot, hend]
    rfl

end Progression.Markup
