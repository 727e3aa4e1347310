import Mathlib.Data.List.Infix
import Progression.Proofs.Markup.Extension

/-!
The grammar of the documents that are accepted, with the tree that a derivation gives, and that
reading is deciding it: a text is read as a tree exactly if it is derivable with this tree
(`document_eq_ok_iff`). Unlike `DocumentText`, which says how a tree is written, the grammar has
every text that is read, so a reference may be none, and a comment ends at its first mark.

That only derivable texts are accepted is proved on what reading goes over: `Cursor.Consumes` says
that a text stands between two places, so nothing is skipped and nothing is read twice.
-/

namespace Progression.Markup

open Progression.Text Cursor

/-! ### The grammar -/

/-- A closing tag. -/
inductive ClosingForm (tag : String) : List Char → Prop
  | mk {p : List Char} : Spaces p → ClosingForm tag ("</".toList ++ (tag.toList ++ (p ++ ['>'])))

mutual

/-- An element from a line on: a tag that closes itself, or an opening tag, content and the closing
tag. -/
inductive ElementForm : Nat → Node → List Char → Prop
  | closed {line : Nat} {n : Node} {s : List Char} : HeadForm n.tag n.attributes s → n.line = line →
    n.text = "" → n.children = [] → ElementForm line n (s ++ ['/', '>'])
  | opened {line : Nat} {n : Node} {s t body e : List Char} : HeadForm n.tag n.attributes s →
    n.line = line → ContentForm (line + (s ++ ['>']).count '\n') t n.children body →
    n.text.toList = trim t → ClosingForm n.tag e → ElementForm line n (s ++ '>' :: (body ++ e))

/-- The content of an element from a line on, with its text before it is trimmed, and its children.
A run of text goes on up to the next `<`; it is decoded. -/
inductive ContentForm : Nat → List Char → List Node → List Char → Prop
  | nil {line : Nat} : ContentForm line [] [] []
  | run {line : Nat} {raw t s : List Char} {ns : List Node} : raw ≠ [] → '<' ∉ raw →
    (∀ x ∈ s.head?, x = '<') → ContentForm (line + raw.count '\n') t ns s →
    ContentForm line (decode raw ++ t) ns (raw ++ s)
  | data {line : Nat} {body raw t s : List Char} {ns : List Node} : ¬ "]]>".toList <:+: body →
    raw = "<![CDATA[".toList ++ (body ++ "]]>".toList) →
    ContentForm (line + raw.count '\n') t ns s → ContentForm line (body ++ t) ns (raw ++ s)
  | aside {line : Nat} {a t s : List Char} {ns : List Node} : AsideForm a →
    ContentForm (line + a.count '\n') t ns s → ContentForm line t ns (a ++ s)
  | child {line : Nat} {n : Node} {raw t s : List Char} {ns : List Node} :
    ElementForm line n raw → ContentForm (line + raw.count '\n') t ns s →
    ContentForm line t (n :: ns) (raw ++ s)

end

/-- A document: one element, and around it what may stand there. -/
inductive DocumentForm (n : Node) : List Char → Prop
  | mk {a s b : List Char} : AroundForm a → ElementForm (1 + a.count '\n') n s → AroundForm b →
    DocumentForm n (a ++ (s ++ b))

/-! ### What reading goes over -/

/-- A text stands between two places. -/
structure Cursor.Consumes (c : Cursor) (s : List Char) (c' : Cursor) : Prop where
  rest : c.rest = s ++ c'.rest
  line : c'.line = c.line + s.count '\n'

variable {c c' c'' : Cursor} {s t : List Char} {tag : String}

namespace Cursor.Consumes

theorem append (h : c.Consumes s c') (h' : c'.Consumes t c'') : c.Consumes (s ++ t) c'' :=
  ⟨by rw [h.rest, h'.rest, List.append_assoc],
    by rw [h'.line, h.line, List.count_append, Nat.add_assoc]⟩

theorem past {r : List Char} (h : c.rest = s ++ r) : c.Consumes s (c.past s r) := ⟨h, rfl⟩

theorem skipWhile (p : Char → Bool) : c.Consumes (c.rest.takeWhile p) (c.skipWhile p) :=
  .past List.takeWhile_append_dropWhile.symm

theorem skipBlanks : ∃ p, Spaces p ∧ c.Consumes p c.skipBlanks :=
  ⟨_, fun _ hx => List.mem_takeWhile_imp hx, .skipWhile _⟩

theorem expect {token : String} (h : c.expect token = .ok c') : c.Consumes token.toList c' := by
  unfold Cursor.expect at h
  split at h
  · next hr => cases h; exact .past (after?_eq_some_iff.1 hr)
  · cases h

theorem takeUntil {mark what : String} (h : c.takeUntil mark what = .ok (s, c')) :
    EndsFirst mark.toList (s ++ mark.toList) ∧ c.Consumes (s ++ mark.toList) c' := by
  unfold Cursor.takeUntil at h
  split at h
  · next hr => cases h; exact ⟨endsFirst_of_cut? hr, .past (eq_of_cut? hr)⟩
  · cases h

theorem name (h : c.name = .ok (s, c')) :
    IsName s ∧ c.Consumes s c' ∧ ∀ x ∈ c'.rest.head?, isNamePart x = false := by
  unfold Cursor.name at h
  dsimp only at h
  split at h
  · cases h
  · next hne =>
    cases h
    refine ⟨⟨by simpa using hne, fun x hx => List.mem_takeWhile_imp hx⟩, .skipWhile _, ?_⟩
    exact head_dropWhile isNamePart c.rest

/-- A mark that begins a text is passed without a line break. -/
theorem drop {m : List Char} (h : m <+: c.rest) (hm : '\n' ∉ m) :
    c.Consumes m ⟨c.rest.drop m.length, c.line⟩ := by
  obtain ⟨r, hr⟩ := h
  refine ⟨?_, ?_⟩
  · rw [← hr, List.drop_left]
  · rw [List.count_eq_zero.2 hm]
    rfl

theorem length_lt (h : c.Consumes s c') (hs : s ≠ []) : c'.rest.length < c.rest.length := by
  have hpos := List.length_pos_iff.2 hs
  rw [h.rest, List.length_append]
  omega

/-- A piece that begins with a mark and ends with another has both marks, if they differ. -/
theorem begins {m : List Char} {x : Char} (h : c.Consumes s c') (hm : m <+: c.rest) (hs : x ∈ s)
    (hx : x ∉ m) : m <+: s :=
  prefix_of_append (h.rest ▸ hm) hs hx

end Cursor.Consumes

/-! ### Tags -/

theorem Cursor.Consumes.oneAttribute {key value : List Char}
    (h : oneAttribute c = .ok (key, value, c')) :
    ∃ s, AttributeForm (String.ofList key, String.ofList value) s ∧ c.Consumes s c' := by
  obtain ⟨c₁, c₂, q, rest, raw, h1, h2, hq, hquote, h3, hlt, rfl⟩ := oneAttribute_eq_ok h
  obtain ⟨hk, hc₁, -⟩ := Consumes.name h1
  obtain ⟨p, hp, hblanks⟩ := Consumes.skipBlanks (c := c₁)
  obtain ⟨p', hp', hblanks'⟩ := Consumes.skipBlanks (c := c₂)
  have hopen : c₂.skipBlanks.Consumes [q] (c₂.skipBlanks.past [q] rest) := .past hq
  obtain ⟨hend, hclose⟩ := Consumes.takeUntil h3
  rw [String.toList_ofList] at hend hclose
  have hqr : q ∉ raw := fun hq =>
    hend.not_infix (by simp) ((List.singleton_infix_iff q raw).2 hq)
  refine ⟨_, .mk hk hp hp' hquote (by simpa using hlt) hqr, ?_⟩
  simpa using hc₁.append (hblanks.append ((Consumes.expect h2).append
    (hblanks'.append (hopen.append hclose))))

/-- An attribute whose name stands among others already is not put among them. -/
theorem ne_of_insertAttribute? {key value : String} {as as' : List (String × String)}
    (h : insertAttribute? key value as = some as') (ho : Ordered as) : ∀ a ∈ as, a.1 ≠ key := by
  induction as generalizing as' with
  | nil => simp
  | cons a as ih =>
    obtain ⟨ha, ho⟩ := List.pairwise_cons.1 ho
    rw [insertAttribute?] at h
    split at h
    · cases h
    · next hne =>
      refine List.forall_mem_cons.2 ⟨hne, ?_⟩
      split at h
      · next hlt => exact fun b hb => (hlt.trans (ha b hb)).ne'
      · obtain ⟨bs, hbs, -⟩ := Option.map_eq_some_iff.1 h
        exact ih hbs ho

/-- An attribute that is put among others comes to its place. -/
theorem ordered_of_insertAttribute? {key value : String} {as as' : List (String × String)}
    (h : insertAttribute? key value as = some as') (ho : Ordered as) :
    as'.Perm ((key, value) :: as) ∧ Ordered as' := by
  have hn := ne_of_insertAttribute? h ho
  obtain ⟨bs, hbs, hperm, hord⟩ := insertAttribute?_ordered value hn ho
  cases hbs.symm.trans h
  exact ⟨hperm, hord⟩

/-- The attributes that are found, with those found before, and what is read of them. -/
theorem Cursor.Consumes.attributes {found as : List (String × String)} {closed : Bool}
    (h : attributes tag found c = .ok (as, closed, c')) (ho : Ordered found) :
    ∃ bs s p e, AttributesForm bs s ∧ Spaces p ∧ TagEnd closed e ∧ c.Consumes (s ++ (p ++ e)) c' ∧
      as.Perm (found ++ bs) ∧ Ordered as := by
  obtain ⟨p, hp, hblanks⟩ := Consumes.skipBlanks (c := c)
  fun_induction Markup.attributes tag found c generalizing p with
  | case1 => cases h
  | case2 found c rest hr =>
    obtain ⟨c₁, h1, h⟩ := Except.bind_eq_ok.1 h
    cases h
    exact ⟨[], [], p, _, .nil, hp, .closed, hblanks.append (.expect h1), by simp, ho⟩
  | case3 found c rest hr =>
    cases h
    exact ⟨[], [], p, _, .nil, hp, .opened, hblanks.append (.past hr), by simp, ho⟩
  | case4 => cases h
  | case5 => cases h
  | case6 found c b rest hr _ _ key value c₁ ha found' hf ih =>
    obtain ⟨s, hs, hc₁⟩ := Consumes.oneAttribute ha
    obtain ⟨hperm, hord⟩ := ordered_of_insertAttribute? hf ho
    obtain ⟨p₁, hp₁, hblanks₁⟩ := Consumes.skipBlanks (c := c₁)
    obtain ⟨bs, t, p', e, ht, hp', he, hrest, hperm', hord'⟩ := ih h hord p₁ hp₁ hblanks₁
    refine ⟨_ :: bs, _, p', e, .cons hp hs ht, hp', he, ?_, ?_, hord'⟩
    · simpa using hblanks.append (hc₁.append hrest)
    · exact hperm'.trans ((hperm.append_right bs).trans List.perm_middle.symm)

theorem AttributesForm.head {as : List (String × String)} (h : AttributesForm as s) :
    ∀ x ∈ s.head?, isAsciiBlank x = true ∨ isNamePart x = true := by
  cases h with
  | nil => simp
  | @cons a as g s t hg ha _ =>
    intro x hx
    cases g with
    | nil =>
      obtain ⟨y, ys, hy, hyn⟩ := ha.exists_cons t
      rw [List.nil_append, hy] at hx
      cases hx
      exact .inr hyn
    | cons b g =>
      obtain rfl : b = x := Option.some.inj hx
      exact .inl (hg b List.mem_cons_self)

theorem Cursor.Consumes.openingTag {f : Frame} {closed : Bool}
    (h : openingTag c = .ok (f, closed, c')) :
    ∃ s e, HeadForm f.tag f.attributes s ∧ TagEnd closed e ∧ c.Consumes (s ++ e) c' ∧
      f = { tag := f.tag, attributes := f.attributes, line := c.line } := by
  obtain ⟨c₁, name, c₂, h1, h2, h3, hf⟩ := openingTag_eq_ok h
  obtain ⟨hn, hc₂, hhead⟩ := Consumes.name h2
  obtain ⟨bs, s, p, e, hs, hp, he, hc', hperm, hord⟩ := Consumes.attributes h3 .nil
  have htag : f.tag.toList = name := by rw [hf, String.toList_ofList]
  have hblank : ∀ x ∈ s.head?, isAsciiBlank x = true := by
    intro x hx
    refine (hs.head x hx).resolve_right fun hxn => ?_
    have hx' : x ∈ c₂.rest.head? := by
      rw [hc'.rest, List.append_assoc, List.head?_append, Option.mem_def.1 hx]
      rfl
    rw [hhead x hx'] at hxn
    cases hxn
  have hform : HeadForm f.tag f.attributes _ :=
    .mk (htag ▸ hn) hs hblank (by simpa using hperm.symm) hord hp
  refine ⟨_, e, hform, he, ?_, ?_⟩
  · rw [htag]
    simpa using (Consumes.expect h1).append (hc₂.append hc')
  · rw [← htag, String.ofList_toList] at hf
    exact hf

theorem Cursor.Consumes.closingTag (h : closingTag tag c = .ok c') :
    ∃ p, Spaces p ∧ c.Consumes (tag.toList ++ (p ++ ['>'])) c' := by
  obtain ⟨found, c₁, h1, rfl, h2⟩ := closingTag_eq_ok_iff.1 h
  obtain ⟨p, hp, hblanks⟩ := Consumes.skipBlanks (c := c₁)
  refine ⟨p, hp, ?_⟩
  rw [String.toList_ofList]
  exact (Consumes.name h1).2.1.append (hblanks.append (.expect h2))

/-! ### Around the root -/

theorem Cursor.Consumes.skipAside (h : skipAside c = .ok c') :
    ∃ s, AroundForm s ∧ c.Consumes s c' := by
  fun_induction Markup.skipAside c with
  | case1 c =>
    cases h
    obtain ⟨p, hp, hblanks⟩ := Consumes.skipBlanks (c := c)
    exact ⟨p, by simpa using AroundForm.blanks hp .nil, hblanks⟩
  | case2 => cases h
  | case3 c mark what hopen t c₁ htake hm =>
    have hgt := Opening.mem_of_aside? hopen
    rw [hm] at hgt
    cases hgt
  | case4 c mark what hopen t c₁ htake hm ih =>
    obtain ⟨p, hp, hblanks⟩ := Consumes.skipBlanks (c := c)
    obtain ⟨hend, hpiece⟩ := Consumes.takeUntil htake
    obtain ⟨s, hs, hrest⟩ := ih h
    have hgt : '>' ∈ t ++ mark.toList :=
      List.mem_append_right t (Opening.mem_of_aside? hopen)
    refine ⟨p ++ (t ++ mark.toList ++ s), .blanks hp ?_, hblanks.append (hpiece.append hrest)⟩
    rcases prefix_of_aside? hopen with ⟨ho, rfl⟩ | ⟨ho, rfl⟩ | ⟨⟨ho, hn⟩, rfl⟩
    · exact .aside (.comment (hpiece.begins ho hgt (by decide)) hend) hs
    · exact .aside (.instruction (hpiece.begins ho hgt (by decide)) hend) hs
    · refine .declaration (hpiece.begins ho hgt (by decide)) (fun hc => hn ?_) hend hs
      exact hc.trans ⟨c₁.rest, hpiece.rest.symm⟩

/-! ### Content -/

/-- The element on top is read to its end over text of the grammar, and then reading goes on with
what is open around it. -/
def Closes (f : Frame) (outer : List Frame) (c : Cursor) (x : Node × Cursor) : Prop :=
  ∃ t ns body e c', ContentForm c.line t ns body ∧ ClosingForm f.tag e ∧ c.Consumes (body ++ e) c' ∧
    resume outer (f.add t ns).close c' = .ok x

namespace Closes

variable {f : Frame} {outer : List Frame} {a raw : List Char} {x : Node × Cursor}

/-- A piece that is passed goes before the content behind it. -/
theorem piece {g : Frame} (hc : c.Consumes raw c')
    (hg : ∀ t ns body, body <+: c'.rest → ContentForm (c.line + raw.count '\n') t ns body →
      ∃ u ms, ContentForm c.line u ms (raw ++ body) ∧ f.add u ms = g.add t ns)
    (h : Closes g outer c' x) : Closes f outer c x := by
  obtain ⟨t, ns, body, e, c₁, hb, he, hcons, hx⟩ := h
  have hpre : body <+: c'.rest := ⟨e ++ c₁.rest, by rw [hcons.rest, List.append_assoc]⟩
  obtain ⟨u, ms, hform, hadd⟩ := hg t ns body hpre (hc.line ▸ hb)
  have htag : g.tag = f.tag := by rw [← g.add_tag t ns, ← hadd, Frame.add_tag]
  refine ⟨u, ms, raw ++ body, e, c₁, hform, htag ▸ he, ?_, hadd ▸ hx⟩
  rw [List.append_assoc]
  exact hc.append hcons

theorem aside (ha : AsideForm a) (hc : c.Consumes a c') (h : Closes f outer c' x) :
    Closes f outer c x :=
  h.piece hc fun t ns _ _ hb => ⟨t, ns, .aside ha hb, rfl⟩

theorem run (hne : raw ≠ []) (hlt : '<' ∉ raw) (hc : c.Consumes raw c')
    (hr : ∀ y ∈ c'.rest.head?, y = '<') (h : Closes (f.addText (decode raw)) outer c' x) :
    Closes f outer c x := by
  refine h.piece hc fun t ns body hpre hb => ⟨_, ns, .run hne hlt ?_ hb, ?_⟩
  · obtain ⟨r, hr'⟩ := hpre
    intro y hy
    refine hr y ?_
    rw [← hr', List.head?_append, Option.mem_def.1 hy]
    rfl
  · rw [Frame.add_addText]

theorem data {body : List Char} (hbody : ¬ "]]>".toList <:+: body)
    (hraw : raw = "<![CDATA[".toList ++ (body ++ "]]>".toList)) (hc : c.Consumes raw c')
    (h : Closes (f.addText body) outer c' x) : Closes f outer c x :=
  h.piece hc fun _ ns _ _ hb => ⟨_, ns, .data hbody hraw hb, (f.add_addText _ _ _).symm⟩

theorem child {n : Node} (hn : ElementForm c.line n raw) (hc : c.Consumes raw c')
    (h : Closes (f.addChild n) outer c' x) : Closes f outer c x :=
  h.piece hc fun t _ _ _ hb => ⟨t, _, .child hn hb, (f.add_addChild n _ _).symm⟩

end Closes

/-- A closed tag is an element. -/
theorem elementForm_of_closed {line : Nat} {f : Frame} (hs : HeadForm f.tag f.attributes s)
    (hf : f = { tag := f.tag, attributes := f.attributes, line }) :
    ElementForm line f.close (s ++ ['/', '>']) := by
  rw [hf]
  exact .closed hs rfl rfl rfl

/-- An opening tag with content and the closing tag is an element. -/
theorem elementForm_of_opened {line : Nat} {f : Frame} {ns : List Node} {body e : List Char}
    (hs : HeadForm f.tag f.attributes s)
    (hf : f = { tag := f.tag, attributes := f.attributes, line })
    (hb : ContentForm (line + (s ++ ['>']).count '\n') t ns body) (he : ClosingForm f.tag e) :
    ElementForm line (f.add t ns).close (s ++ '>' :: (body ++ e)) := by
  rw [hf] at hs he ⊢
  refine .opened (t := t) hs rfl ?_ ?_ he
  · simpa [Frame.close, Frame.add] using hb
  · simp [Frame.close, Frame.add]

/-- Content that is read is content of the grammar. -/
theorem closes_of_content {f : Frame} {outer : List Frame} {x : Node × Cursor}
    (h : content f outer c = .ok x) : Closes f outer c x := by
  -- An element inside is read to its end before the rest, so the induction is on the text left.
  induction hlen : c.rest.length using Nat.strong_induction_on generalizing f outer c with
  | _ k ih =>
  subst hlen
  rw [content] at h
  split at h
  · cases h
  · next ho =>
    split at h
    · cases h
    next c₁ h₁ =>
    obtain ⟨p, hp, hclose⟩ := Consumes.closingTag h₁
    have hopen := Consumes.drop ((Opening.mark_prefix _).2.2.2 ho) (by decide)
    refine ⟨[], [], [], _, c₁, .nil, .mk hp, hopen.append hclose, ?_⟩
    rw [Frame.add_nil]
    cases outer <;> exact h
  · next ho =>
    split at h
    · cases h
    next s c₁ h₁ =>
    obtain ⟨hend, hc⟩ := Consumes.takeUntil h₁
    have hform := AsideForm.comment (hc.begins (x := '>') ((Opening.mark_prefix _).1 ho) (by simp)
      (by decide)) hend
    exact .aside hform hc (ih _ (hc.length_lt (by simp)) h rfl)
  · next ho =>
    split at h
    · cases h
    next s c₁ h₁ =>
    obtain ⟨hend, hc⟩ := Consumes.takeUntil h₁
    have hopen := Consumes.drop ((Opening.mark_prefix _).2.2.1 ho) (by decide)
    have hc := hopen.append hc
    exact .data (hend.not_infix (by decide)) rfl hc (ih _ (hc.length_lt (by simp)) h rfl)
  · next ho =>
    split at h
    · cases h
    next s c₁ h₁ =>
    obtain ⟨hend, hc⟩ := Consumes.takeUntil h₁
    have hform := AsideForm.instruction (hc.begins (x := '>') ((Opening.mark_prefix _).2.1 ho)
      (by simp) (by decide)) hend
    exact .aside hform hc (ih _ (hc.length_lt (by simp)) h rfl)
  · next ho =>
    split at h
    · cases h
    next g closed c₁ h₁ =>
    obtain ⟨s, e, hs, he, hc, hg⟩ := Consumes.openingTag h₁
    have hlt := length_of_openingTag h₁
    cases he with
    | closed => exact .child (elementForm_of_closed hs hg) hc (ih _ hlt h rfl)
    | opened =>
      obtain ⟨t, ns, body, e, c₂, hb, he, hc₂, hx⟩ := ih _ hlt h rfl
      have hall : c.Consumes (s ++ '>' :: (body ++ e)) c₂ := by simpa using hc.append hc₂
      refine .child (elementForm_of_opened hs hg (hc.line ▸ hb) he) hall ?_
      exact ih _ (hall.length_lt (by simp)) hx rfl
  · next ho =>
    obtain ⟨y, ys, hy, hne⟩ := Opening.exists_of_text ho
    have hc := Consumes.skipWhile (c := c) (· ≠ '<')
    have hraw : c.rest.takeWhile (· ≠ '<') ≠ [] := by simp [hy, hne]
    have hlt : '<' ∉ c.rest.takeWhile (· ≠ '<') := fun hm => by
      simpa using List.mem_takeWhile_imp hm
    have hhead : ∀ y ∈ (c.skipWhile (· ≠ '<')).rest.head?, y = '<' := fun y hy => by
      simpa using head_dropWhile (· ≠ '<') c.rest y hy
    exact .run hraw hlt hc hhead (ih _ (hc.length_lt hraw) h rfl)

/-- An element that is read is one of the grammar. -/
theorem exists_elementForm {n : Node} (h : element c = .ok (n, c')) :
    ∃ s, ElementForm c.line n s ∧ c.Consumes s c' := by
  obtain ⟨⟨f, closed, c₁⟩, h₁, h⟩ := Except.bind_eq_ok.1 h
  obtain ⟨s, e, hs, he, hc, hf⟩ := Consumes.openingTag h₁
  cases he with
  | closed =>
    cases h
    exact ⟨_, elementForm_of_closed hs hf, hc⟩
  | opened =>
    obtain ⟨t, ns, body, e, c₂, hb, he, hc₂, hx⟩ := closes_of_content h
    cases hx
    exact ⟨_, elementForm_of_opened hs hf (hc.line ▸ hb) he, by simpa using hc.append hc₂⟩

/-- Behind what may stand before the root, a document that is read goes on with the rest of it,
the root and what stands behind the root. -/
theorem exists_forms_of_document {n : Node} (hs : AroundForm s) (h : document (s ++ t) = .ok n) :
    ∃ a e b, t = a ++ (e ++ b) ∧ AroundForm a ∧ ElementForm (1 + (s ++ a).count '\n') n e ∧
      AroundForm b := by
  obtain ⟨c₁, h₁, h⟩ := Except.bind_eq_ok.1 h
  dsimp only at h
  split at h
  · cases h
  obtain ⟨⟨m, c₂⟩, h₂, h⟩ := Except.bind_eq_ok.1 h
  obtain ⟨c₃, h₃, h⟩ := Except.bind_eq_ok.1 h
  have hc : (Cursor.start (s ++ t)).Consumes s ((Cursor.start (s ++ t)).past s t) := .past rfl
  obtain ⟨a, ha, hc₁⟩ := Consumes.skipAside ((skipAside_over hs rfl).symm.trans h₁)
  obtain ⟨e, he, hc₂⟩ := exists_elementForm h₂
  obtain ⟨b, hb, hc₃⟩ := Consumes.skipAside h₃
  dsimp only at h
  split at h
  · next hend =>
    cases h
    have hall := (hc₁.append (hc₂.append hc₃)).rest
    rw [List.isEmpty_iff.1 hend, List.append_nil] at hall
    exact ⟨a, e, b, hall, ha, (hc.append hc₁).line ▸ he, hb⟩
  · cases h

theorem documentForm_of_document {n : Node} (h : document s = .ok n) : DocumentForm n s := by
  obtain ⟨a, e, b, rfl, ha, he, hb⟩ := exists_forms_of_document (s := []) .nil h
  exact .mk ha he hb

/-! ### What is derivable is read -/

mutual

theorem isRead_of_elementForm {line : Nat} {n : Node} {s : List Char} :
    ElementForm line n s → ∀ (c : Cursor) (r : List Char), c.rest = s ++ r → c.line = line →
      IsRead n c (c.past s r)
  | .closed hs hl ht hn => by
    intro c r hc hcl
    exact isRead_of_closed hs (hl.trans hcl.symm) ht hn hc
  | @ElementForm.opened line n s t body _ hs hl hb ht (.mk hp) => by
    intro c r hc hcl
    have hbody (outer : List Frame) (d : Cursor) (u : List Char) (hu : ∀ x ∈ u.head?, x = '<')
        (hd : d.rest = body ++ u) (hdl : d.line = c.line + (s ++ ['>']).count '\n') :
        content n.frame outer d = content (n.frame.add t n.children) outer (d.past body u) :=
      content_of_contentForm hb _ outer d u hu hd (by rw [hdl, hcl])
    have h := isRead_of_opened (r := r) hs (hl.trans hcl.symm) ht hp hbody (by simpa using hc)
    simpa using h

theorem content_of_contentForm {line : Nat} {t : List Char} {ns : List Node} {s : List Char} :
    ContentForm line t ns s → ∀ (f : Frame) (outer : List Frame) (c : Cursor) (r : List Char),
      (∀ x ∈ r.head?, x = '<') → c.rest = s ++ r → c.line = line →
        content f outer c = content (f.add t ns) outer (c.past s r)
  | .nil => by
    intro f outer c r _ hc _
    rw [List.nil_append] at hc
    rw [← hc, past_nil, Frame.add_nil]
  | @ContentForm.run _ raw _ s _ _ hlt hhead hs => by
    intro f outer c r hr hc hl
    rw [List.append_assoc] at hc
    have hnone : (s ++ r).takeWhile (· ≠ '<') = [] := by
      refine takeWhile_of_head ?_
      cases s with
      | nil => exact hr
      | cons x s => exact hhead
    have hrun : content f outer c = content (f.addText (decode raw)) outer (c.past raw (s ++ r)) :=
      content_run_of_decode hlt (by rw [hnone]; simp [decode]) hc
    rw [hrun, content_of_contentForm hs _ _ _ r hr rfl (by rw [← hl]; rfl), past_past,
      Frame.add_addText]
  | .data hbody hraw hs => by
    intro f outer c r hr hc hl
    rw [List.append_assoc] at hc
    rw [content_section hbody hraw hc, content_of_contentForm hs _ _ _ r hr rfl (by rw [← hl]; rfl),
      past_past, Frame.add_addText]
  | @ContentForm.aside _ a _ s _ ha hs => by
    intro f outer c r hr hc hl
    rw [List.append_assoc] at hc
    rw [content_aside ha hc, content_of_contentForm hs _ _ _ r hr rfl (by rw [← hl]; rfl),
      past_past]
  | .child he hs => by
    intro f outer c r hr hc hl
    rw [List.append_assoc] at hc
    rw [(isRead_of_elementForm he _ _ hc hl).content,
      content_of_contentForm hs _ _ _ r hr rfl (by rw [← hl]; rfl), past_past, Frame.add_addChild]

end

/-- The root is read, and nothing else may stand behind it. -/
theorem document_of_elementForm {n : Node} {a e r : List Char} (ha : AroundForm a)
    (he : ElementForm (1 + a.count '\n') n e) :
    document (a ++ (e ++ r)) = skipAside ((Cursor.start (a ++ (e ++ r))).past (a ++ e) r) >>=
      fun c => if c.rest.isEmpty then .ok n else c.fail .afterRoot := by
  rw [document_of_isRead ha (isRead_of_elementForm he _ r rfl rfl), past_past]

theorem document_of_documentForm {n : Node} (h : DocumentForm n s) : document s = .ok n := by
  cases h with
  | @mk a e b ha he hb =>
    have hend := skipAside_append (c := (Cursor.start (a ++ (e ++ b))).past (a ++ e) b) (r := []) hb
      rfl (by simp) (by simp)
    rw [document_of_elementForm ha he, hend]
    rfl

/-- **Reading decides the grammar**: a text is read as a tree exactly if it is derivable with the
tree. -/
theorem document_eq_ok_iff {n : Node} : document s = .ok n ↔ DocumentForm n s :=
  ⟨documentForm_of_document, document_of_documentForm⟩

end Progression.Markup
