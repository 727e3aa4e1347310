import Progression.Proofs.Markup.Content

/-!
Every tree can be written, if its names are names, its attributes are in order, and its texts are
trimmed: on one line, with every character as a reference.
-/

namespace Progression.Markup

open Progression.Text Cursor

/-! ### References -/

theorem digits_decimal (n : Nat) : Digits 10 n (Number.decimal n) := by
  have hd : ∀ d < 10, (Number.digitChar d, d) ∈ digitTable := by decide
  fun_induction Number.decimal n with
  | case1 n h => exact .one (hd n h) h
  | case2 n _ ih =>
    have hm : n % 10 < 10 := Nat.mod_lt n (by omega)
    have h := ih.more (hd _ hm) hm
    rwa [show n / 10 * 10 + n % 10 = n by omega] at h

/-- Every text can be written in references. -/
theorem exists_encoded (avoided t : List Char) : ∃ raw, Encoded avoided t raw ∧ '\n' ∉ raw := by
  induction t with
  | nil => exact ⟨[], .nil, by simp⟩
  | cons c t ih =>
    obtain ⟨raw, hraw, hn⟩ := ih
    have hr : Refers c ('#' :: Number.decimal c.toNat) := .decimal (digits_decimal _)
    refine ⟨_, .reference hr hraw, ?_⟩
    have hc : '\n' ∉ '#' :: Number.decimal c.toNat := hr.not_mem rfl (by decide)
    simp only [List.mem_cons, List.mem_append] at hc ⊢
    rintro (h | h | h | h)
    · cases h
    · exact hc h
    · cases h
    · exact hn h

/-! ### Trees -/

/-- A tree that can be written. -/
inductive Regular : Node → Prop
  | mk {tag text : String} {attributes : List (String × String)} {children : List Node}
      {line : Nat} : IsName tag.toList → (∀ a ∈ attributes, IsName a.1.toList) →
    Ordered attributes → trim text.toList = text.toList → (∀ n ∈ children, Regular n) →
    Regular ⟨tag, attributes, text, children, line⟩

mutual

/-- A tree with all its elements on one line. -/
def Node.onLine (line : Nat) : Node → Node
  | ⟨tag, attributes, text, children, _⟩ => ⟨tag, attributes, text, onLines line children, line⟩

def Node.onLines (line : Nat) : List Node → List Node
  | [] => []
  | n :: ns => onLine line n :: onLines line ns

end

theorem IsName.newline {s : List Char} (h : IsName s) : '\n' ∉ s := by
  intro hm
  cases h.2 _ hm

theorem exists_attributesText {as : List (String × String)} (h : ∀ a ∈ as, IsName a.1.toList) :
    ∃ s, AttributesText as s ∧ '\n' ∉ s := by
  induction as with
  | nil => exact ⟨[], .nil, by simp⟩
  | cons a as ih =>
    obtain ⟨hk, hks⟩ := List.forall_mem_cons.1 h
    obtain ⟨s, hs, hn⟩ := ih hks
    obtain ⟨raw, hraw, hrn⟩ := exists_encoded ['<', '"'] a.2.toList
    have hgap : Gap [' '] := ⟨by decide, by decide⟩
    have hnone : Spaces [] := by decide
    have ha := AttributeText.mk hgap hk hnone hnone (.inl rfl) hraw
    refine ⟨_, .cons ha hs, ?_⟩
    simpa using ⟨IsName.newline hk, hrn, hn⟩

theorem exists_contentText {line : Nat} {ns : List Node}
    (h : ∀ n ∈ ns, ∃ s, ElementText line (n.onLine line) s ∧ '\n' ∉ s) :
    ∃ s, ContentText line [] (Node.onLines line ns) s ∧ '\n' ∉ s := by
  induction ns with
  | nil => exact ⟨[], .nil, by simp⟩
  | cons n ns ih =>
    obtain ⟨⟨raw, hraw, hrn⟩, hns⟩ := List.forall_mem_cons.1 h
    obtain ⟨s, hs, hsn⟩ := ih hns
    have hl : line + raw.count '\n' = line := by rw [List.count_eq_zero.2 hrn]; rfl
    exact ⟨raw ++ s, .child hraw (hl.symm ▸ hs), by simp [hrn, hsn]⟩

theorem exists_elementText {n : Node} (h : Regular n) (line : Nat) :
    ∃ s, ElementText line (n.onLine line) s ∧ '\n' ∉ s := by
  induction h with
  | @mk tag text attributes children l ht hk ho htrim _ ih =>
    obtain ⟨s, hs, hsn⟩ := exists_attributesText hk
    obtain ⟨raw, hraw, hrn⟩ := exists_encoded ['<'] text.toList
    obtain ⟨body, hbody, hbn⟩ := exists_contentText ih
    have hhead : HeadText (Node.onLine line ⟨tag, attributes, text, children, l⟩) _ :=
      .mk (p := []) ht hs (.refl _) ho (by decide)
    have htn := IsName.newline ht
    have hl : line + ('<' :: (tag.toList ++ (s ++ [])) ++ ['>']).count '\n' + raw.count '\n' =
        line := by
      rw [List.count_eq_zero.2 hrn, List.count_eq_zero.2 (by simp [htn, hsn])]
      rfl
    have hcontent : ContentText (line + ('<' :: (tag.toList ++ (s ++ [])) ++ ['>']).count '\n')
        (text.toList ++ []) (Node.onLines line children) (raw ++ body) :=
      .text hraw (by rw [hl]; exact hbody)
    have htext : text.toList = trim (text.toList ++ []) := by rw [List.append_nil, htrim]
    refine ⟨_, .opened (p := []) hhead rfl hcontent htext (by decide), ?_⟩
    simp [Node.onLine, htn, hsn, hrn, hbn]

/-- **Every tree can be written.** -/
theorem exists_documentText {n : Node} (h : Regular n) : ∃ s, DocumentText (n.onLine 1) s := by
  obtain ⟨s, hs, -⟩ := exists_elementText h 1
  exact ⟨_, .mk (a := []) (b := []) (.blanks (by decide)) hs (.blanks (by decide))⟩

end Progression.Markup
