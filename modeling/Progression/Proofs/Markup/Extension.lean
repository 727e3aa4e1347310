import Progression.Proofs.Markup.Content

/-!
Reading with more text behind. What reading passes, it passes as well when the text goes on, and up
to lines with the same result (`Cursor.Extends`); what it leaves is the end of what it had
(`Cursor.Leaves`).
-/

namespace Progression.Markup

open Progression.Text

/-- The same place in a text that goes on; the line is of no account. -/
def Cursor.Extends (r : List Char) (c d : Cursor) : Prop := d.rest = c.rest ++ r

/-- A place, and a later one. -/
def Cursor.Leaves (c c' : Cursor) : Prop := c'.rest <:+ c.rest

/-! ### Marks -/

theorem after?_extend {m s rest : List Char} (h : after? m s = some rest) (r : List Char) :
    after? m (s ++ r) = some (rest ++ r) := by
  rw [after?_eq_some_iff] at h ⊢
  rw [h, List.append_assoc]

/-- The first mark stays the first when the text goes on. -/
theorem cut?_extend {m s before rest : List Char} (h : cut? m s = some (before, rest))
    (r : List Char) : cut? m (s ++ r) = some (before, rest ++ r) := by
  induction s generalizing before with
  | nil =>
    obtain ⟨t, ht, he⟩ := Option.map_eq_some_iff.1 h
    cases he
    obtain ⟨rfl, rfl⟩ := List.nil_eq_append_iff.1 (after?_eq_some_iff.1 ht)
    cases r <;> rfl
  | cons c s ih =>
    rw [cut?] at h
    rw [List.cons_append, cut?, ← List.cons_append]
    split at h
    · next t ht =>
      cases h
      rw [after?_extend ht]
    · next hnone =>
      obtain ⟨⟨b, t⟩, hcut, he⟩ := Option.map_eq_some_iff.1 h
      cases he
      have hext : after? m (c :: s ++ r) = none := by
        rw [Option.eq_none_iff_forall_ne_some]
        intro u hu
        -- The text is as long as the mark, which stands further behind in it.
        have hlen := congrArg List.length (eq_of_cut? hcut)
        have hpre : m <+: c :: s := by
          refine List.prefix_of_prefix_length_le ⟨u, (after?_eq_some_iff.1 hu).symm⟩ ⟨r, rfl⟩ ?_
          simp only [List.length_append] at hlen
          simp only [List.length_cons]
          omega
        obtain ⟨v, hv⟩ := hpre
        cases hnone.symm.trans (after?_eq_some_iff.2 hv.symm)
      rw [hext, ih hcut]
      rfl

/-! ### Places -/

namespace Cursor.Leaves

variable {c c' c'' : Cursor}

theorem rfl : c.Leaves c := List.suffix_refl _

theorem trans (h : c.Leaves c') (h' : c'.Leaves c'') : c.Leaves c'' := List.IsSuffix.trans h' h

theorem skipWhile (p : Char → Bool) : c.Leaves (c.skipWhile p) := List.dropWhile_suffix p

theorem skipBlanks : c.Leaves c.skipBlanks := skipWhile _

theorem expect {token : String} (h : c.expect token = .ok c') : c.Leaves c' := by
  unfold Cursor.expect at h
  split at h
  · next hr => cases h; exact ⟨_, (after?_eq_some_iff.1 hr).symm⟩
  · cases h

theorem takeUntil {mark what : String} {s : List Char} (h : c.takeUntil mark what = .ok (s, c')) :
    c.Leaves c' := by
  unfold Cursor.takeUntil at h
  split at h
  · next hr => cases h; exact ⟨_, (eq_of_cut? hr).symm⟩
  · cases h

theorem name {n : List Char} (h : c.name = .ok (n, c')) : c.Leaves c' := by
  unfold Cursor.name at h
  dsimp only at h
  split at h
  · cases h
  · cases h
    exact skipWhile _

theorem ne_nil (h : c.Leaves c') (hn : c'.rest ≠ []) : c.rest ≠ [] := by
  intro hc
  have hs : c'.rest <:+ c.rest := h
  rw [hc] at hs
  exact hn (List.suffix_nil.1 hs)

end Cursor.Leaves

theorem Cursor.ne_nil_of_expect {c c' : Cursor} {token : String} (h : c.expect token = .ok c')
    (ht : token.toList ≠ []) : c.rest ≠ [] := by
  intro hc
  have hlen := length_of_expect h
  rw [hc] at hlen
  have := List.length_pos_iff.2 ht
  simp only [List.length_nil] at hlen
  omega

namespace Cursor.Extends

variable {r : List Char} {c c' d : Cursor}

theorem skipWhile_eq (h : c.Extends r d) {p : Char → Bool}
    (hr : (c.skipWhile p).rest ≠ [] ∨ ∀ x ∈ r.head?, p x = false) :
    d.skipWhile p = d.past (c.rest.takeWhile p) ((c.skipWhile p).rest ++ r) := by
  have hd : d.rest = c.rest.takeWhile p ++ ((c.skipWhile p).rest ++ r) := by
    rw [h, ← List.append_assoc]
    exact congrArg (· ++ r) List.takeWhile_append_dropWhile.symm
  refine skipWhile_append hd (fun x hx => List.mem_takeWhile_imp hx) ?_
  have hhead := List.head?_dropWhile_not p c.rest
  show ∀ x ∈ (c.rest.dropWhile p ++ r).head?, p x = false
  rw [List.head?_append]
  change c.rest.dropWhile p ≠ [] ∨ _ at hr
  cases hs : c.rest.dropWhile p with
  | nil => simpa [hs] using hr
  | cons x s => simpa [hs] using hhead

theorem skipWhile (h : c.Extends r d) {p : Char → Bool}
    (hr : (c.skipWhile p).rest ≠ [] ∨ ∀ x ∈ r.head?, p x = false) :
    (c.skipWhile p).Extends r (d.skipWhile p) := by
  rw [h.skipWhile_eq hr]
  rfl

theorem takeWhile (h : c.Extends r d) {p : Char → Bool}
    (hr : (c.skipWhile p).rest ≠ [] ∨ ∀ x ∈ r.head?, p x = false) :
    d.rest.takeWhile p = c.rest.takeWhile p := by
  have hd := List.takeWhile_append_dropWhile (p := p) (l := d.rest)
  have hskip : d.rest.dropWhile p = (c.skipWhile p).rest ++ r := h.skipWhile hr
  have hc : c.rest.takeWhile p ++ ((c.skipWhile p).rest ++ r) = d.rest := by
    rw [h, ← List.append_assoc]
    exact congrArg (· ++ r) List.takeWhile_append_dropWhile
  rw [hskip] at hd
  exact List.append_cancel_right (hd.trans hc.symm)

theorem skipBlanks (h : c.Extends r d) (hr : c.skipBlanks.rest ≠ [] ∨ r = []) :
    c.skipBlanks.Extends r d.skipBlanks :=
  h.skipWhile (hr.imp_right (by rintro rfl; simp))

theorem name (h : c.Extends r d) {n : List Char} (hn : c.name = .ok (n, c'))
    (hr : c'.rest ≠ []) : ∃ d', d.name = .ok (n, d') ∧ c'.Extends r d' := by
  unfold Cursor.name at hn ⊢
  dsimp only at hn ⊢
  split at hn
  · cases hn
  · next hne =>
    cases hn
    rw [h.takeWhile (.inl hr), if_neg hne]
    exact ⟨_, rfl, h.skipWhile (.inl hr)⟩

theorem expect (h : c.Extends r d) {token : String} (hc : c.expect token = .ok c') :
    ∃ d', d.expect token = .ok d' ∧ c'.Extends r d' := by
  unfold Cursor.expect at hc
  split at hc
  · next hrest =>
    cases hc
    refine ⟨_, expect_append token (after?_eq_some_iff.1 ?_), rfl⟩
    rw [h]
    exact after?_extend hrest r
  · cases hc

theorem takeUntil (h : c.Extends r d) {mark what : String} {s : List Char}
    (hc : c.takeUntil mark what = .ok (s, c')) :
    ∃ d', d.takeUntil mark what = .ok (s, d') ∧ c'.Extends r d' := by
  unfold Cursor.takeUntil at hc
  split at hc
  · next hcut =>
    cases hc
    exact ⟨_, takeUntil_append (h ▸ cut?_extend hcut r), rfl⟩
  · cases hc

end Cursor.Extends

/-! ### Tags -/

section Tags

variable {r key value : List Char} {c c' d : Cursor} {tag : String}

/-- The parts of an attribute. -/
theorem oneAttribute_eq_ok (h : oneAttribute c = .ok (key, value, c')) :
    ∃ c₁ c₂ q rest raw, c.name = .ok (key, c₁) ∧ c₁.skipBlanks.expect "=" = .ok c₂ ∧
      c₂.skipBlanks.rest = q :: rest ∧ (q = '"' ∨ q = '\'') ∧
      (c₂.skipBlanks.past [q] rest).takeUntil (String.ofList [q]) "attribute value" =
        .ok (raw, c') ∧ raw.contains '<' = false ∧ decode raw = value := by
  obtain ⟨⟨k, c₁⟩, h1, h⟩ := Except.bind_eq_ok.1 h
  obtain ⟨c₂, h2, h⟩ := Except.bind_eq_ok.1 h
  dsimp only at h
  split at h
  · next q rest hq =>
    split at h
    · next hquote =>
      obtain ⟨⟨raw, c₃⟩, h3, h⟩ := Except.bind_eq_ok.1 h
      dsimp only at h
      split at h
      · cases h
      · next hlt =>
        cases h
        exact ⟨c₁, c₂, q, rest, raw, h1, h2, hq, hquote, h3, by simpa using hlt, rfl⟩
    · cases h
  · cases h

theorem Cursor.Leaves.oneAttribute (h : oneAttribute c = .ok (key, value, c')) : c.Leaves c' := by
  obtain ⟨c₁, c₂, q, rest, raw, h1, h2, hq, -, h3, -⟩ := oneAttribute_eq_ok h
  have hrest : c₂.skipBlanks.Leaves (c₂.skipBlanks.past [q] rest) := ⟨[q], hq.symm⟩
  exact (Leaves.name h1).trans (Leaves.skipBlanks.trans ((Leaves.expect h2).trans
    (Leaves.skipBlanks.trans (hrest.trans (Leaves.takeUntil h3)))))

theorem Cursor.Extends.oneAttribute (hd : c.Extends r d)
    (h : oneAttribute c = .ok (key, value, c')) :
    ∃ d', oneAttribute d = .ok (key, value, d') ∧ c'.Extends r d' := by
  obtain ⟨c₁, c₂, q, rest, raw, h1, h2, hq, hquote, h3, hlt, rfl⟩ := oneAttribute_eq_ok h
  have hne := ne_nil_of_expect h2 (by decide)
  obtain ⟨d₁, e1, hd₁⟩ := hd.name h1 (Leaves.skipBlanks.ne_nil hne)
  obtain ⟨d₂, e2, hd₂⟩ := (hd₁.skipBlanks (.inl hne)).expect h2
  have hblanks : d₂.skipBlanks.rest = q :: (rest ++ r) := by
    rw [hd₂.skipBlanks (.inl (by simp [hq])), hq]
    rfl
  have hd₃ : (c₂.skipBlanks.past [q] rest).Extends r (d₂.skipBlanks.past [q] (rest ++ r)) := rfl
  obtain ⟨d₃, e3, hd₃⟩ := hd₃.takeUntil h3
  refine ⟨d₃, Except.bind_eq_ok.2 ⟨_, e1, Except.bind_eq_ok.2 ⟨_, e2, ?_⟩⟩, hd₃⟩
  simp only [hblanks, if_pos hquote]
  refine Except.bind_eq_ok.2 ⟨_, e3, ?_⟩
  simp only [hlt, Bool.false_eq_true, if_false]
  rfl

variable {found as : List (String × String)} {closed : Bool} {f : Frame}

theorem attributes_closed {rest : List Char} (hc : c.skipBlanks.rest = '/' :: rest)
    (h : c.skipBlanks.expect "/>" = .ok c') : attributes tag found c = .ok (found, true, c') := by
  rw [attributes]
  split
  · next heq => cases hc.symm.trans heq
  · next heq =>
    cases hc.symm.trans heq
    rw [if_pos rfl]
    exact Except.bind_eq_ok.2 ⟨_, h, rfl⟩

theorem attributes_opened {rest : List Char} (hc : c.skipBlanks.rest = '>' :: rest) :
    attributes tag found c = .ok (found, false, c.skipBlanks.past ['>'] rest) := by
  rw [attributes]
  split
  · next heq => cases hc.symm.trans heq
  · next heq =>
    cases hc.symm.trans heq
    rw [if_neg (by decide), if_pos rfl]

theorem Cursor.Leaves.attributes (h : attributes tag found c = .ok (as, closed, c')) :
    c.Leaves c' := by
  fun_induction Markup.attributes tag found c with
  | case1 => cases h
  | case2 found c rest hc =>
    obtain ⟨c₁, h1, h⟩ := Except.bind_eq_ok.1 h
    cases h
    exact Leaves.skipBlanks.trans (Leaves.expect h1)
  | case3 found c rest hc =>
    cases h
    exact Leaves.skipBlanks.trans ⟨['>'], hc.symm⟩
  | case4 => cases h
  | case5 => cases h
  | case6 found c b rest hc _ _ key value c₁ ha found' hf ih =>
    exact Leaves.skipBlanks.trans ((Leaves.oneAttribute ha).trans (ih h))

theorem Cursor.Extends.attributes (hd : c.Extends r d)
    (h : attributes tag found c = .ok (as, closed, c')) :
    ∃ d', attributes tag found d = .ok (as, closed, d') ∧ c'.Extends r d' := by
  fun_induction Markup.attributes tag found c generalizing d with
  | case1 => cases h
  | case2 found c rest hc =>
    obtain ⟨c₁, h1, h⟩ := Except.bind_eq_ok.1 h
    cases h
    have hb := hd.skipBlanks (.inl (by simp [hc]))
    obtain ⟨d₁, e1, hd₁⟩ := hb.expect h1
    have hdc : d.skipBlanks.rest = '/' :: (rest ++ r) := by rw [hb, hc]; rfl
    exact ⟨d₁, attributes_closed hdc e1, hd₁⟩
  | case3 found c rest hc =>
    cases h
    have hb := hd.skipBlanks (.inl (by simp [hc]))
    have hdc : d.skipBlanks.rest = '>' :: (rest ++ r) := by rw [hb, hc]; rfl
    exact ⟨_, attributes_opened hdc, rfl⟩
  | case4 => cases h
  | case5 => cases h
  | case6 found c b rest hc _ _ key value c₁ ha found' hf ih =>
    have hb := hd.skipBlanks (.inl (by simp [hc]))
    obtain ⟨d₁, e1, hd₁⟩ := hb.oneAttribute ha
    obtain ⟨d₂, e2, hd₂⟩ := ih hd₁ h
    obtain ⟨_, _, _, _, _, hname, -⟩ := oneAttribute_eq_ok ha
    obtain ⟨x, s, hx, hxn⟩ := exists_cons_of_name hname
    have hdc : d.skipBlanks.rest = x :: (s ++ r) := by rw [hb, hx]; rfl
    exact ⟨d₂, (attributes_of_oneAttribute hdc hxn e1 hf).trans e2, hd₂⟩

theorem Cursor.Leaves.openingTag (h : openingTag c = .ok (f, closed, c')) : c.Leaves c' := by
  obtain ⟨c₁, tag, c₂, h1, h2, h3, -⟩ := openingTag_eq_ok h
  exact (Leaves.expect h1).trans ((Leaves.name h2).trans (Leaves.attributes h3))

/-- A tag is read the same in a longer text, but for its line. -/
theorem Cursor.Extends.openingTag (hd : c.Extends r d) (h : openingTag c = .ok (f, closed, c')) :
    ∃ d', openingTag d = .ok ({ f with line := d.line }, closed, d') ∧ c'.Extends r d' := by
  obtain ⟨c₁, tag, c₂, h1, h2, h3, hf⟩ := openingTag_eq_ok h
  have hne : c₂.rest ≠ [] := by
    intro hnil
    have hlt := length_of_attributes h3
    rw [hnil] at hlt
    cases hlt
  obtain ⟨d₁, e1, hd₁⟩ := hd.expect h1
  obtain ⟨d₂, e2, hd₂⟩ := hd₁.name h2 hne
  obtain ⟨d₃, e3, hd₃⟩ := hd₂.attributes h3
  refine ⟨d₃, Except.bind_eq_ok.2 ⟨_, e1, Except.bind_eq_ok.2 ⟨_, e2, Except.bind_eq_ok.2
    ⟨_, e3, ?_⟩⟩⟩, hd₃⟩
  rw [hf]
  rfl

/-- The parts of a closing tag. -/
theorem closingTag_eq_ok_iff : closingTag tag c = .ok c' ↔
    ∃ found c₁, c.name = .ok (found, c₁) ∧ String.ofList found = tag ∧
      c₁.skipBlanks.expect ">" = .ok c' := by
  constructor
  · intro h
    obtain ⟨⟨found, c₁⟩, h1, h⟩ := Except.bind_eq_ok.1 h
    dsimp only at h
    split at h
    · next ht => exact ⟨found, c₁, h1, ht, h⟩
    · cases h
  · rintro ⟨found, c₁, h1, rfl, h⟩
    exact Except.bind_eq_ok.2 ⟨_, h1, by dsimp only; rw [if_pos rfl]; exact h⟩

theorem Cursor.Leaves.closingTag (h : closingTag tag c = .ok c') : c.Leaves c' := by
  obtain ⟨found, c₁, h1, -, h2⟩ := closingTag_eq_ok_iff.1 h
  exact (Leaves.name h1).trans (Leaves.skipBlanks.trans (Leaves.expect h2))

theorem Cursor.Extends.closingTag (hd : c.Extends r d) (h : closingTag tag c = .ok c') :
    ∃ d', closingTag tag d = .ok d' ∧ c'.Extends r d' := by
  obtain ⟨found, c₁, h1, ht, h2⟩ := closingTag_eq_ok_iff.1 h
  have hne := ne_nil_of_expect h2 (by decide)
  obtain ⟨d₁, e1, hd₁⟩ := hd.name h1 (Leaves.skipBlanks.ne_nil hne)
  obtain ⟨d₂, e2, hd₂⟩ := (hd₁.skipBlanks (.inl hne)).expect h2
  exact ⟨d₂, closingTag_eq_ok_iff.2 ⟨found, d₁, e1, ht, e2⟩, hd₂⟩

end Tags

/-! ### What begins -/

open Cursor

theorem isSome_after?_append {m s : List Char} {x : Char} (hm : x ∉ m) (hs : x ∈ s)
    (r : List Char) : (after? m (s ++ r)).isSome = (after? m s).isSome := by
  rw [Bool.eq_iff_iff, Option.isSome_iff_exists, Option.isSome_iff_exists]
  constructor
  · rintro ⟨t, ht⟩
    have hpre : m <+: s ++ r := ⟨t, (after?_eq_some_iff.1 ht).symm⟩
    rcases List.prefix_or_prefix_of_prefix hpre ⟨r, rfl⟩ with ⟨u, hu⟩ | h
    · exact ⟨u, after?_eq_some_iff.2 hu.symm⟩
    · exact absurd (h.subset hs) hm
  · rintro ⟨t, ht⟩
    exact ⟨t ++ r, after?_extend ht r⟩

/-- What begins at a place is known before the next `>`. -/
theorem Opening.of_append {s : List Char} (h : '>' ∈ s) (r : List Char) :
    Opening.of (s ++ r) = Opening.of s := by
  cases s with
  | nil => cases h
  | cons c s =>
    rw [List.cons_append, Opening.of, Opening.of]
    by_cases hc : c = '<'
    · have hs : '>' ∈ s := by simpa [hc] using h
      rw [isSome_after?_append (by decide) hs, isSome_after?_append (by decide) hs,
        isSome_after?_append (by decide) hs, isSome_after?_append (by decide) hs]
    · rw [if_pos hc, if_pos hc]

theorem Opening.aside?_append {s : List Char} (h : '>' ∈ s) (r : List Char) :
    Opening.aside? (s ++ r) = Opening.aside? s := by
  unfold Opening.aside?
  rw [Opening.of_append h, isSome_after?_append (by decide) h]

theorem Opening.mem_of_aside? {s : List Char} {mark what : String}
    (h : Opening.aside? s = some (mark, what)) : '>' ∈ mark.toList := by
  unfold Opening.aside? at h
  split at h
  · cases h; decide
  · cases h; decide
  · split at h
    · cases h; decide
    · cases h

theorem Cursor.subset_of_takeUntil {c c' : Cursor} {mark what : String} {s : List Char}
    (h : c.takeUntil mark what = .ok (s, c')) : mark.toList ⊆ c.rest := by
  unfold takeUntil at h
  split at h
  · next hcut =>
    rw [eq_of_cut? hcut]
    intro x hx
    simp [hx]
  · cases h

theorem mem_of_closingTag {tag : String} {c c' : Cursor} (h : closingTag tag c = .ok c') :
    '>' ∈ c.rest := by
  obtain ⟨found, c₁, h1, -, h2⟩ := closingTag_eq_ok_iff.1 h
  have hleaves : c.Leaves c₁.skipBlanks := (Leaves.name h1).trans Leaves.skipBlanks
  refine hleaves.subset ?_
  unfold expect at h2
  split at h2
  · next hr =>
    rw [after?_eq_some_iff.1 hr]
    exact List.mem_append_left _ (by decide)
  · cases h2

theorem Cursor.Leaves.skipAside {c c' : Cursor} (h : Markup.skipAside c = .ok c') :
    c.Leaves c' := by
  fun_induction Markup.skipAside c with
  | case1 => cases h; exact .skipBlanks
  | case2 => cases h
  | case3 _ _ _ _ _ _ htake => cases h; exact Leaves.skipBlanks.trans (.takeUntil htake)
  | case4 _ _ _ _ _ _ htake _ ih => exact Leaves.skipBlanks.trans (.trans (.takeUntil htake) (ih h))

/-- What stands around the root is passed also in a longer text, up to where a tag stands. -/
theorem Cursor.Extends.skipAside {r : List Char} {c c' d : Cursor} (hd : c.Extends r d)
    (h : Markup.skipAside c = .ok c')
    (hr : (∃ f closed c'', Markup.openingTag c' = .ok (f, closed, c'')) ∨ r = []) :
    ∃ d', Markup.skipAside d = .ok d' ∧ c'.Extends r d' := by
  fun_induction Markup.skipAside c generalizing d with
  | case1 c hnone =>
    cases h
    rcases hr with ⟨f, closed, c'', htag⟩ | rfl
    · obtain ⟨x, s, hx, hxn⟩ := exists_cons_of_openingTag htag
      have hb := hd.skipBlanks (.inl (by simp [hx]))
      have hdc : d.skipBlanks.rest = '<' :: x :: (s ++ r) := by rw [hb, hx]; rfl
      exact ⟨_, skipAside_of_none (hdc ▸ aside?_element hxn _), hb⟩
    · have hb := hd.skipBlanks (.inr rfl)
      exact ⟨_, skipAside_of_none (by rwa [hb, List.append_nil]), hb⟩
  | case2 => cases h
  | case3 c mark what hsome s c₁ htake hm =>
    have := Opening.mem_of_aside? hsome
    rw [hm] at this
    cases this
  | case4 c mark what hsome s c₁ htake hm ih =>
    have hgt := subset_of_takeUntil htake (Opening.mem_of_aside? hsome)
    have hb := hd.skipBlanks (.inl (List.ne_nil_of_mem hgt))
    obtain ⟨d₁, e1, hd₁⟩ := hb.takeUntil htake
    obtain ⟨d₂, e2, hd₂⟩ := ih hd₁ h
    have haside : Opening.aside? d.skipBlanks.rest = some (mark, what) := by
      rw [hb, Opening.aside?_append hgt, hsome]
    exact ⟨d₂, (skipAside_of_some haside hm e1).trans e2, hd₂⟩

end Progression.Markup
