import Progression.Proofs.Markup.Canonical
import Progression.Proofs.Markup.Insertion
import Progression.Proofs.Markup.Parting

/-!
Comments at a place of a document. A place is before or behind the root, between the pieces that
stand there, or in the content of an element (`Inside`), where no reference spans it. What is put
there and ends with its first mark changes the lines of the tree only (`document_insert`); a
comment does so if the mark is not found in its opening already.
-/

namespace Progression.Markup

open Progression.Text Cursor

/-! ### Lines -/

mutual

theorem ElementForm.relined {line : Nat} {n : Node} {s : List Char} :
    ElementForm line n s → ∀ line', ∃ m, ElementForm line' m s ∧ m.onLine 0 = n.onLine 0
  | .closed hs hl ht hn => by
    intro line'
    cases n
    cases ht
    cases hn
    exact ⟨⟨_, _, "", [], line'⟩, .closed hs rfl rfl rfl, rfl⟩
  | @ElementForm.opened _ n s t body e hs hl hb ht he => by
    intro line'
    obtain ⟨ms, hms, hlines⟩ := hb.relined (line' + (s ++ ['>']).count '\n')
    cases n
    refine ⟨⟨_, _, _, ms, line'⟩, .opened hs rfl hms ht he, ?_⟩
    rw [Node.onLine, Node.onLine, hlines]

/-- Content stands the same at another line, but for the lines of the children. -/
theorem ContentForm.relined {line : Nat} {t : List Char} {ns : List Node} {s : List Char} :
    ContentForm line t ns s →
      ∀ line', ∃ ms, ContentForm line' t ms s ∧ Node.onLines 0 ms = Node.onLines 0 ns
  | .nil => fun _ => ⟨[], .nil, rfl⟩
  | .run hne hlt hhead hs => fun line' => by
    obtain ⟨ms, hms, hlines⟩ := hs.relined _
    exact ⟨ms, .run hne hlt hhead hms, hlines⟩
  | .data hbody hraw hs => fun line' => by
    obtain ⟨ms, hms, hlines⟩ := hs.relined _
    exact ⟨ms, .data hbody hraw hms, hlines⟩
  | .aside ha hs => fun line' => by
    obtain ⟨ms, hms, hlines⟩ := hs.relined _
    exact ⟨ms, .aside ha hms, hlines⟩
  | .child hn hs => fun line' => by
    obtain ⟨m, hm, hline⟩ := hn.relined line'
    obtain ⟨ms, hms, hlines⟩ := hs.relined _
    exact ⟨m :: ms, .child hm hms, by rw [Node.onLines, Node.onLines, hline, hlines]⟩

end

/-! ### Places -/

/-- A text up to a place in the content of an element: opening tags, each with content behind it
that is read completely. -/
inductive Inside : List Char → Prop
  | root {a s t body : List Char} {tag : String} {as : List (String × String)} {line : Nat}
    {ns : List Node} : AroundForm a → HeadForm tag as s → ContentForm line t ns body →
    Inside (a ++ (s ++ '>' :: body))
  | child {pre s t body : List Char} {tag : String} {as : List (String × String)} {line : Nat}
    {ns : List Node} : Inside pre → HeadForm tag as s → ContentForm line t ns body →
    Inside (pre ++ (s ++ '>' :: body))

/-- A place in a document, by what stands before and behind it: between the pieces before the
root, in an element between two characters, references or pieces of its content, or between the
pieces behind the root. -/
inductive Place (pre post : List Char) : Prop
  | before : AroundForm pre → Place pre post
  | inside : Inside pre → ¬ Spans (fun n => (referenced? n).isSome = true) pre post → Place pre post
  | behind {n : Node} : DocumentForm n pre → Place pre post

variable {a pre post r s t body : List Char} {n : Node} {c : Cursor}

/-- Behind an opening tag and content, reading goes on in the element of the tag. -/
theorem exists_content_of_headForm {tag : String} {as : List (String × String)} {line : Nat}
    {ns : List Node} (hs : HeadForm tag as s) (hb : ContentForm line t ns body)
    (hr : ∀ x ∈ r.head?, x = '<') (hc : c.rest = s ++ '>' :: (body ++ r)) :
    ∃ g c₁, openingTag c = .ok (g, false, c₁) ∧
      ∀ outer, ∃ f c₂, content g outer c₁ = content f outer c₂ ∧ c₂.rest = r := by
  have htag := openingTag_of_headForm hs .opened (r := body ++ r) (by rw [hc]; rfl)
  refine ⟨_, _, htag, fun outer => ?_⟩
  obtain ⟨ms, hms, -⟩ := hb.relined (c.past (s ++ ['>']) (body ++ r)).line
  exact ⟨_, _, content_of_contentForm hms _ outer _ r hr rfl rfl, rfl⟩

/-- Behind a text up to a place in an element, reading goes on in the element. -/
theorem Inside.exists_content (h : Inside s) (hr : ∀ x ∈ r.head?, x = '<') :
    ∃ f outer c, document (s ++ r) = content f outer c >>= finished ∧ c.rest = r := by
  induction h generalizing r with
  | @root a s t body tag as line ns ha hs hb =>
    obtain ⟨x, s', hx, hxn⟩ := hs.exists_cons
    have h₀ := skipAside_append (c := .start (a ++ (s ++ '>' :: (body ++ r)))) ha
      (by rw [hx]; exact aside?_element hxn _) (by rw [hx]; simp; rfl) rfl
    obtain ⟨g, c₁, h₁, hgo⟩ := exists_content_of_headForm hs hb hr
      (c := (Cursor.start (a ++ (s ++ '>' :: (body ++ r)))).past a (s ++ '>' :: (body ++ r))) rfl
    obtain ⟨f, c₂, h₂, hrest⟩ := hgo []
    refine ⟨f, [], c₂, ?_, hrest⟩
    rw [List.append_assoc, List.append_assoc, List.cons_append, document_of_openingTag h₀ h₁, h₂]
  | @child pre s t body tag as line ns _ hs hb ih =>
    obtain ⟨x, s', hx, hxn⟩ := hs.exists_cons
    obtain ⟨f, outer, c, hdoc, hc⟩ := ih (r := s ++ '>' :: (body ++ r)) (by rw [hx]; simp)
    obtain ⟨g, c₁, h₁, hgo⟩ := exists_content_of_headForm hs hb hr hc
    obtain ⟨f', c₂, h₂, hrest⟩ := hgo (f :: outer)
    refine ⟨f', f :: outer, c₂, ?_, hrest⟩
    have ho : Opening.of c.rest = .element := by rw [hc, hx]; exact opening_element hxn _
    rw [List.append_assoc, List.append_assoc, List.cons_append, hdoc, content_element ho h₁,
      if_neg Bool.false_ne_true, h₂]

/-- A text up to a place in an element leaves the element open. -/
theorem Inside.unclosed (h : Inside s) : ∃ line tag, document s = .error ⟨line, .unclosed tag⟩ := by
  obtain ⟨f, outer, c, hdoc, hc⟩ := h.exists_content (r := []) (by simp)
  have hend : Opening.of c.rest = .ending := by rw [hc]; rfl
  rw [List.append_nil, content_ending hend] at hdoc
  exact ⟨c.line, f.tag, hdoc⟩

/-! ### What is put at a place -/

theorem document_insert_before (hp : AroundForm pre) (ha : AsideForm a)
    (h : document (pre ++ post) = .ok n) :
    ∃ m, document (pre ++ (a ++ post)) = .ok m ∧ m.onLine 0 = n.onLine 0 := by
  obtain ⟨b, e, d, rfl, hb, he, hd⟩ := exists_forms_of_document hp h
  obtain ⟨m, hm, hline⟩ := he.relined (1 + (pre ++ (a ++ b)).count '\n')
  have hform := DocumentForm.mk (hp.append (.aside ha hb)) hm hd
  exact ⟨m, document_of_documentForm (by simpa using hform), hline⟩

/-- A document that goes on behind a document has the same root. -/
theorem around_of_document_append {m : Node} (hp : DocumentForm m pre)
    (h : document (pre ++ post) = .ok n) : n = m ∧ AroundForm post := by
  cases hp with
  | @mk b e d hb he hd =>
    rw [List.append_assoc, List.append_assoc, document_of_elementForm hb he, skipAside_over hd rfl]
      at h
    obtain ⟨c, hc, h⟩ := Except.bind_eq_ok.1 h
    obtain ⟨s, hs, hpost⟩ := Consumes.skipAside hc
    split at h
    · next hend =>
      cases h
      have hrest : post = s ++ c.rest := hpost.rest
      rw [List.isEmpty_iff.1 hend, List.append_nil] at hrest
      exact ⟨rfl, hrest ▸ hs⟩
    · cases h

theorem document_insert_behind {m : Node} (hp : DocumentForm m pre) (ha : AsideForm a)
    (h : document (pre ++ post) = .ok n) : document (pre ++ (a ++ post)) = .ok n := by
  obtain ⟨rfl, hpost⟩ := around_of_document_append hp h
  cases hp with
  | mk hb he hd =>
    refine document_of_documentForm ?_
    rw [List.append_assoc, List.append_assoc]
    exact .mk hb he (hd.append (.aside ha hpost))

/-- **A comment or a processing instruction at a place of a document changes the lines of its tree
only.** -/
theorem document_insert (hp : Place pre post) (ha : AsideForm a)
    (h : document (pre ++ post) = .ok n) :
    ∃ m, document (pre ++ (a ++ post)) = .ok m ∧ m.onLine 0 = n.onLine 0 := by
  cases hp with
  | before hp => exact document_insert_before hp ha h
  | inside hp hspans =>
    obtain ⟨line, tag, hopen⟩ := hp.unclosed
    exact document_insert_aside hopen ha (fun raw hraw _ => decode_run_append hspans hraw) h
  | behind hp => exact ⟨n, document_insert_behind hp ha h, rfl⟩

/-- The end of a comment whose text begins with `>` or `->` is found in its opening: so a document
is read with the comment as it is read with the rest of its text, and its end, as text. -/
theorem read_insert_overlap {source : String} {o : List Char} (ho : o = ['>'] ∨ o = ['-', '>'])
    (hp : Place pre (body ++ ("-->".toList ++ post)))
    (h : read source (pre ++ (body ++ ("-->".toList ++ post))) = .ok n) :
    ∃ m, read source (pre ++ (comment (o ++ body) ++ post)) = .ok m ∧ m.onLine 0 = n.onLine 0 := by
  have haside : AsideForm ("<!--".toList ++ o) := by
    rcases ho with rfl | rfl
    · exact .comment (by decide) (@endsFirst_of_cut? _ "<!-->".toList "<!".toList [] rfl)
    · exact .comment (by decide) (@endsFirst_of_cut? _ "<!--->".toList "<!-".toList [] rfl)
  obtain ⟨m, hm, hline⟩ := document_insert hp haside (read_eq_ok_iff.1 h)
  refine ⟨m, read_eq_ok_iff.2 ?_, hline⟩
  simpa [comment] using hm

/-! ### An element with text only -/

theorem headForm_plain : HeadForm "P" [] "<P".toList :=
  .mk (p := []) (by decide) .nil (by simp) (.refl _) .nil (by decide)

theorem contentForm_plain (hne : s ≠ []) (hlt : '<' ∉ s) (hd : decode s = s) :
    ContentForm 1 s [] s := by
  have h := @ContentForm.run 1 s [] [] [] hne hlt (by simp) .nil
  rwa [hd, List.append_nil] at h

theorem read_of_contentForm {text : String} (hb : ContentForm 1 t [] body)
    (ht : text.toList = trim t) : read "test" ("<P>".toList ++ (body ++ "</P>".toList)) =
      .ok ⟨"P", [], text, [], 1⟩ := by
  have hroot := @ElementForm.opened 1 ⟨"P", [], text, [], 1⟩ _ _ _ _ headForm_plain rfl hb ht
    (.mk (p := []) (by decide))
  have hdoc := document_of_documentForm (.mk (a := []) (b := []) .nil hroot .nil)
  exact read_eq_ok_iff.2 (by simpa using hdoc)

theorem place_plain : Place "<P>a".toList "b</P>".toList := by
  have hb : ContentForm 1 "a".toList [] "a".toList :=
    contentForm_plain (by decide) (by decide) (by simp [decode])
  exact .inside (Inside.root (a := []) .nil headForm_plain hb) fun h =>
    absurd h.amp (by decide)

theorem read_plain : read "test" ("<P>a".toList ++ "b</P>".toList) =
    .ok ⟨"P", [], "ab", [], 1⟩ := by
  have hb : ContentForm 1 "ab".toList [] "ab".toList :=
    contentForm_plain (by decide) (by decide) (by simp [decode])
  exact read_of_contentForm hb rfl

/-! ### Comments -/

/-- **A comment at a place of a document changes the lines of its tree only**, whatever its text,
unless this begins with `>` or `->`. -/
theorem read_insert_comment {source : String} (hp : Place pre post)
    (hbody : ¬ "-->".toList <:+: body) (hfirst : ¬ ">".toList <+: body)
    (hsecond : ¬ "->".toList <+: body) (h : read source (pre ++ post) = .ok n) :
    ∃ m, read source (pre ++ (comment body ++ post)) = .ok m ∧ m.onLine 0 = n.onLine 0 := by
  have haside : AsideForm (comment body) := (AsideText.comment hbody hfirst hsecond).form
  obtain ⟨m, hm, hline⟩ := document_insert hp haside (read_eq_ok_iff.1 h)
  exact ⟨m, read_eq_ok_iff.2 hm, hline⟩

theorem read_insert_comment_plain : ∃ m,
    read "test" ("<P>a".toList ++ (comment " - > ".toList ++ "b</P>".toList)) = .ok m ∧
      m.onLine 0 = ⟨"P", [], "ab", [], 0⟩ :=
  read_insert_comment place_plain (by decide) (by decide) (by decide) read_plain

/-- A comment whose text is `>` is no comment for the reader, whose tree has other text with it. -/
theorem read_comment_overlap :
    (¬ "--".toList <:+: ">".toList ∧ ¬ "-".toList <:+ ">".toList) ∧
      Place "<P>a".toList "b</P>".toList ∧
      read "test" ("<P>a".toList ++ "b</P>".toList) = .ok ⟨"P", [], "ab", [], 1⟩ ∧
      read "test" ("<P>a".toList ++ (comment ">".toList ++ "b</P>".toList)) =
        .ok ⟨"P", [], "a-->b", [], 1⟩ := by
  refine ⟨by decide, place_plain, read_plain, ?_⟩
  have haside : AsideForm "<!-->".toList :=
    .comment (by decide) (@endsFirst_of_cut? _ "<!-->".toList "<!".toList [] rfl)
  have hrest : ContentForm 1 "-->b".toList [] "-->b".toList :=
    contentForm_plain (by decide) (by decide) (by simp [decode])
  have hb := @ContentForm.run 1 "a".toList _ _ _ (by decide) (by decide) (by simp)
    (.aside haside hrest)
  have hd : decode "a".toList = "a".toList := by simp [decode]
  rw [hd] at hb
  exact read_of_contentForm hb rfl

end Progression.Markup
