import Progression.Proofs.Markup.Derivation
import Progression.Proofs.Markup.Piece

/-!
Trees that are read, and how they are written back. A tree that is read is regular: its names are
names, its attributes are in order and its texts are trimmed. So it has one canonical writing
(`Node.write`), in which everything that has a predefined name is written by it, values stand in
double quotes, and the text of an element before its children; and this is read as the same tree,
up to lines.
-/

namespace Progression.Markup

open Progression.Text Cursor

/-! ### Trees that are read -/

theorem AttributesForm.isName {as : List (String × String)} {s : List Char}
    (h : AttributesForm as s) : ∀ a ∈ as, IsName a.1.toList := by
  induction h with
  | nil => simp
  | cons _ ha _ ih =>
    refine List.forall_mem_cons.2 ⟨?_, ih⟩
    cases ha with
    | mk hk => rwa [String.toList_ofList]

theorem HeadForm.regular {tag : String} {as : List (String × String)} {s : List Char}
    (h : HeadForm tag as s) :
    IsName tag.toList ∧ (∀ a ∈ as, IsName a.1.toList) ∧ Ordered as := by
  cases h with
  | mk ht has _ hperm ho => exact ⟨ht, fun a ha => has.isName a (hperm.mem_iff.2 ha), ho⟩

mutual

theorem ElementForm.regular {line : Nat} {n : Node} {s : List Char} :
    ElementForm line n s → Regular n
  | .closed hs _ ht hn => by
    obtain ⟨htag, has, ho⟩ := hs.regular
    cases n
    cases ht
    cases hn
    exact .mk htag has ho rfl (by simp)
  | .opened hs _ hb ht _ => by
    obtain ⟨htag, has, ho⟩ := hs.regular
    have hall := hb.regular
    cases n
    exact .mk htag has ho (by rw [ht, trim_trim]) hall

theorem ContentForm.regular {line : Nat} {t : List Char} {ns : List Node} {s : List Char} :
    ContentForm line t ns s → ∀ n ∈ ns, Regular n
  | .nil => by simp
  | .run _ _ _ hs => hs.regular
  | .data _ _ hs => hs.regular
  | .aside _ hs => hs.regular
  | .child hn hs => List.forall_mem_cons.2 ⟨hn.regular, hs.regular⟩

end

/-! ### Writing -/

/-- A character by its predefined name, if it has one. -/
def escapeChar (c : Char) : List Char :=
  ((predefined.find? fun p => p.2 == c).map fun p => '&' :: (p.1 ++ [';'])).getD [c]

def escape (s : List Char) : List Char := s.flatMap escapeChar

def writeAttribute (a : String × String) : List Char :=
  ' ' :: (a.1.toList ++ '=' :: '"' :: (escape a.2.toList ++ ['"']))

mutual

/-- The canonical writing of a tree. -/
def Node.write : Node → List Char
  | ⟨tag, attributes, text, children, _⟩ =>
    '<' :: (tag.toList ++ (attributes.flatMap writeAttribute ++
      if text = "" ∧ children.isEmpty then ['/', '>']
      else '>' :: (escape text.toList ++ (Node.writeAll children ++
        '<' :: '/' :: (tag.toList ++ ['>'])))))

def Node.writeAll : List Node → List Char
  | [] => []
  | n :: ns => n.write ++ Node.writeAll ns

end

theorem encoded_escape {avoided : List Char} (h : ∀ x ∈ avoided, ∃ p ∈ predefined, p.2 = x)
    (t : List Char) : Encoded avoided t (escape t) := by
  induction t with
  | nil => exact .nil
  | cons c t ih =>
    rw [escape, List.flatMap_cons, ← escape, escapeChar]
    cases hfind : predefined.find? fun p => p.2 == c with
    | some p =>
      have hp : p.2 = c := by simpa using List.find?_some hfind
      have hm : (p.1, c) ∈ predefined := hp ▸ List.mem_of_find?_eq_some hfind
      simpa using Encoded.reference (.predefined hm) ih
    | none =>
      have hn : ∀ p ∈ predefined, p.2 ≠ c := by simpa using hfind
      refine .literal ?_ ?_ ih
      · exact (hn ("amp".toList, '&') (by decide)).symm
      · intro hc
        obtain ⟨p, hp, hpc⟩ := h c hc
        exact hn p hp hpc

theorem attributesText_write {as : List (String × String)} (h : ∀ a ∈ as, IsName a.1.toList) :
    AttributesText as (as.flatMap writeAttribute) := by
  induction as with
  | nil => exact .nil
  | cons a as ih =>
    obtain ⟨ha, has⟩ := List.forall_mem_cons.1 h
    have hgap : Gap [' '] := ⟨by decide, by decide⟩
    have hnone : Spaces [] := by decide
    have hv : Encoded ['<', '"'] a.2.toList (escape a.2.toList) := encoded_escape (by decide) _
    exact .cons (.mk hgap ha hnone hnone (.inl rfl) hv) (ih has)

/-- Trees one after the other are written so if each is. -/
theorem exists_contentText_writeAll {ns : List Node}
    (h : ∀ n ∈ ns, ∀ line, ∃ m, ElementText line m n.write ∧ m.onLine 0 = n.onLine 0) (line : Nat) :
    ∃ ms, ContentText line [] ms (Node.writeAll ns) ∧ Node.onLines 0 ms = Node.onLines 0 ns := by
  induction ns generalizing line with
  | nil => exact ⟨[], .nil, rfl⟩
  | cons n ns ih =>
    obtain ⟨hn, hns⟩ := List.forall_mem_cons.1 h
    obtain ⟨m, hm, hline⟩ := hn line
    obtain ⟨ms, hms, hlines⟩ := ih hns (line + n.write.count '\n')
    exact ⟨m :: ms, .child hm hms, by rw [Node.onLines, Node.onLines, hline, hlines]⟩

theorem exists_elementText_write {n : Node} (h : Regular n) (line : Nat) :
    ∃ m, ElementText line m n.write ∧ m.onLine 0 = n.onLine 0 := by
  induction h generalizing line with
  | @mk tag text attributes children l ht hk ho htrim _ ih =>
    have hhead : ∀ children, HeadText ⟨tag, attributes, text, children, line⟩
        ('<' :: (tag.toList ++ (attributes.flatMap writeAttribute ++ []))) :=
      fun _ => .mk ht (attributesText_write hk) (.refl _) ho (by decide)
    by_cases hempty : text = "" ∧ children.isEmpty
    · obtain ⟨rfl, hn⟩ := hempty
      obtain rfl := List.isEmpty_iff.1 hn
      refine ⟨⟨tag, attributes, "", [], line⟩, ?_, rfl⟩
      simpa [Node.write] using ElementText.closed (hhead []) rfl rfl rfl
    · have hraw : Encoded ['<'] text.toList (escape text.toList) := encoded_escape (by decide) _
      obtain ⟨ms, hms, hlines⟩ := exists_contentText_writeAll ih (line +
        (('<' :: (tag.toList ++ (attributes.flatMap writeAttribute ++ []))) ++ ['>']).count '\n' +
          (escape text.toList).count '\n')
      refine ⟨⟨tag, attributes, text, ms, line⟩, ?_, ?_⟩
      · have htext : text.toList = trim (text.toList ++ []) := by rw [List.append_nil, htrim]
        have hform := ElementText.opened (p := []) (hhead ms) rfl (.text hraw hms) htext (by decide)
        rw [Node.write, if_neg hempty]
        simpa using hform
      · rw [Node.onLine, Node.onLine, hlines]

/-- What a tree is written as is read as the tree, up to lines. -/
theorem exists_document_write {n : Node} (h : Regular n) :
    ∃ m, document n.write = .ok m ∧ m.onLine 0 = n.onLine 0 := by
  obtain ⟨m, hm, hline⟩ := exists_elementText_write h 1
  have hdoc := document_of_documentText
    (.mk (a := []) (b := []) (.blanks (by decide)) hm (.blanks (by decide)))
  exact ⟨m, by simpa using hdoc, hline⟩

theorem read_eq_ok_iff {source : String} {s : List Char} {n : Node} :
    read source s = .ok n ↔ document s = .ok n := by
  unfold read
  cases document s with
  | error f => simp
  | ok m => simp

/-- **A text is read as a tree exactly if it is derivable with the tree**, and then the tree is
regular, and what it is written as is read as the same tree, up to lines. -/
theorem read_iff_documentForm (source : String) (s : List Char) :
    (∀ n, read source s = .ok n ↔ DocumentForm n s) ∧
      ∀ n, read source s = .ok n →
        Regular n ∧ ∃ m, read source n.write = .ok m ∧ m.onLine 0 = n.onLine 0 := by
  refine ⟨fun n => read_eq_ok_iff.trans document_eq_ok_iff, fun n h => ?_⟩
  cases document_eq_ok_iff.1 (read_eq_ok_iff.1 h) with
  | mk _ he _ =>
    obtain ⟨m, hm, hline⟩ := exists_document_write he.regular
    exact ⟨he.regular, m, read_eq_ok_iff.2 hm, hline⟩

/-- A document with attributes that stand without a blank between them, and a comment that ends
where it begins. -/
theorem read_iff_documentForm_overlap :
    read "test" "<P b='2'a=\"1\">x<!-->y</P>".toList =
        .ok ⟨"P", [("a", "1"), ("b", "2")], "xy", [], 1⟩ ∧
      Regular ⟨"P", [("a", "1"), ("b", "2")], "xy", [], 1⟩ ∧
      ∃ m, read "test" (Node.write ⟨"P", [("a", "1"), ("b", "2")], "xy", [], 1⟩) = .ok m ∧
        m.onLine 0 = ⟨"P", [("a", "1"), ("b", "2")], "xy", [], 0⟩ := by
  have hnone : Spaces [] := by decide
  have hkey : IsName ['a'] ∧ IsName ['b'] ∧ IsName "P".toList := by decide
  -- The attributes, of which only the first must stand behind a blank.
  have ha : AttributeForm ("a", "1") "a=\"1\"".toList := by
    have h := @AttributeForm.mk ['a'] [] [] ['1'] '"' hkey.1 hnone hnone (.inl rfl) (by decide)
      (by decide)
    simpa [decode] using h
  have hb : AttributeForm ("b", "2") "b='2'".toList := by
    have h := @AttributeForm.mk ['b'] [] [] ['2'] '\'' hkey.2.1 hnone hnone (.inr rfl) (by decide)
      (by decide)
    simpa [decode] using h
  have hhead : HeadForm "P" [("a", "1"), ("b", "2")] "<P b='2'a=\"1\"".toList :=
    .mk (p := []) hkey.2.2 (.cons (g := [' ']) (by decide) hb (.cons (g := []) hnone ha .nil))
      (by rintro x ⟨⟩; rfl) (.swap _ _ _) (by unfold Ordered; decide) hnone
  -- The comment, whose end is found in its opening.
  have haside : AsideForm "<!-->".toList :=
    .comment (by decide) (@endsFirst_of_cut? _ "<!-->".toList "<!".toList [] rfl)
  have hrun : ContentForm 1 ("y".toList ++ []) [] ("y".toList ++ []) := by
    have h := @ContentForm.run 1 ['y'] [] [] [] (by simp) (by decide) (by simp) .nil
    simpa [decode] using h
  have hbody : ContentForm 1 ("x".toList ++ ("y".toList ++ [])) []
      ("x".toList ++ ("<!-->".toList ++ ("y".toList ++ []))) := by
    have h := @ContentForm.run 1 ['x'] _ _ _ (by simp) (by decide) (by simp) (.aside haside hrun)
    simpa [decode] using h
  have hroot := @ElementForm.opened 1 ⟨"P", [("a", "1"), ("b", "2")], "xy", [], 1⟩ _ _ _ _ hhead rfl
    hbody rfl (.mk hnone)
  have hread := ((read_iff_documentForm "test" _).1 _).2 (.mk (a := []) (b := []) .nil hroot .nil)
  exact ⟨hread, (read_iff_documentForm "test" _).2 _ hread⟩

end Progression.Markup
