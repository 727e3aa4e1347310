import Progression.Program.Basic
import Progression.Proofs.Markup.Piece

/-!
What is put in between: a comment or a section of plain character data, at a place in the content of
an element. The text before the place is one whose reading fails only because an element is left
open there; any text goes on from it with the same open elements (`document_append`).
-/

namespace Progression.Markup

open Progression.Text Cursor

/-! ### Documents that go on -/

/-- What is done with a root that has been read: nothing else may stand behind it. -/
def finished (p : Node × Cursor) : Except Failure Node := do
  let c ← skipAside p.2
  if c.rest.isEmpty then return p.1 else c.fail .afterRoot

variable {s r : List Char} {c c₀ c₁ : Cursor} {f g : Frame} {n m : Node} {line : Nat}
  {tag : String}

theorem document_of_openingTag (h₀ : skipAside (.start s) = .ok c₀)
    (h₁ : openingTag c₀ = .ok (f, false, c₁)) : document s = content f [] c₁ >>= finished := by
  have hne : ¬ c₀.rest.isEmpty = true := by
    obtain ⟨x, t, hx, -⟩ := exists_cons_of_openingTag h₁
    simp [hx]
  unfold document element
  rw [h₀]
  simp only [bind, Except.bind]
  rw [if_neg hne, h₁]
  rfl

/-- Where an element is left open, the root has been opened. -/
theorem exists_openingTag_of_unclosed (h : document s = .error ⟨line, .unclosed tag⟩) :
    ∃ c₀ f c₁, skipAside (.start s) = .ok c₀ ∧ openingTag c₀ = .ok (f, false, c₁) ∧
      content f [] c₁ = .error ⟨line, .unclosed tag⟩ := by
  unfold document at h
  rcases Except.bind_eq_error.1 h with h | ⟨c₀, h₀, h⟩
  · exact absurd rfl (spares_skipAside _ h tag)
  dsimp only at h
  split at h
  · cases h
  rcases Except.bind_eq_error.1 h with h | ⟨⟨n, c₂⟩, -, h⟩
  · rcases Except.bind_eq_error.1 h with h | ⟨⟨f, closed, c₁⟩, h₁, h⟩
    · exact absurd rfl (spares_openingTag _ h tag)
    · cases closed with
      | true => cases h
      | false => exact ⟨c₀, f, c₁, h₀, h₁, h⟩
  · rcases Except.bind_eq_error.1 h with h | ⟨c₃, -, h⟩
    · exact absurd rfl (spares_skipAside _ h tag)
    · dsimp only at h
      split at h <;> cases h

/-- A text that leaves an element open goes on with the elements that are open there, whatever is
put behind it, unless a reference goes on from the one to the other. -/
theorem document_append (h : document s = .error ⟨line, .unclosed tag⟩) :
    ∃ g gs, g.tag = tag ∧ ∀ r,
      (∀ raw, raw <:+ s → '<' ∉ raw → decode (raw ++ r.takeWhile (· ≠ '<')) =
        decode raw ++ decode (r.takeWhile (· ≠ '<'))) →
      ∃ f outer c, document (s ++ r) = content f outer c >>= finished ∧
        (f :: outer).map Frame.unlined = g :: gs ∧ c.rest = r := by
  obtain ⟨c₀, f, c₁, h₀, h₁, h₂⟩ := exists_openingTag_of_unclosed h
  obtain ⟨c₂, g, outer, hb, hend, hg⟩ : ∃ c₂ g outer, Brings [f] c₁ (g :: outer) c₂ ∧
      c₂.rest = [] ∧ g.tag = tag := by
    have hstops := content_stops f [] c₁
    generalize content f [] c₁ = x at h₂ hstops
    cases hstops with
    | unclosed hb hr => cases h₂; exact ⟨_, _, _, hb, hr, rfl⟩
    | ended => cases h₂
    | failed he => cases h₂; exact absurd rfl (he tag)
  obtain ⟨ps, hps, honto⟩ := hb
  obtain ⟨ps₀, raw, hlt, hsuf, hrun, hext⟩ := hps.extends_run hend
  rw [hrun, Piece.allOnto_append, Option.bind_eq_some_iff] at honto
  obtain ⟨hs, hps₀, hraw⟩ := honto
  refine ⟨g.unlined, outer.map Frame.unlined, hg, fun r hr => ?_⟩
  -- The root is opened, and then the same pieces are read up to the last run of text.
  have hd : (Cursor.start s).Extends r (.start (s ++ r)) := rfl
  obtain ⟨d₀, e₀, hd₀⟩ := hd.skipAside h₀ (.inl ⟨f, false, c₁, h₁⟩)
  obtain ⟨d₁, e₁, hd₁⟩ := hd₀.openingTag h₁
  obtain ⟨qs, d₂, hqs, hqsps, hd₂⟩ := hext r d₁ hd₁
  have hroot : [({ f with line := d₀.line } : Frame)].map Frame.unlined = [f].map Frame.unlined :=
    rfl
  obtain ⟨hs', hqs', halike⟩ := Piece.allOnto_alike hqsps hroot hps₀
  cases hs with
  | nil => cases hraw
  | cons k ks =>
    cases hraw
    cases hs' with
    | nil => cases halike
    | cons k' ks' =>
      obtain ⟨hk, hks⟩ := List.cons.inj halike
      have hleaves : raw <:+ s :=
        hsuf.trans ((Leaves.skipAside h₀).trans (Leaves.openingTag h₁))
      refine ⟨k'.addText (decode raw), ks', d₂.past raw r, ?_, ?_, rfl⟩
      · rw [document_of_openingTag e₀ e₁, content_of_readsAll hqs hqs',
          content_run_of_decode hlt (hr raw hleaves hlt) hd₂]
      · rw [List.map_cons, Frame.unlined_addText, Frame.unlined_addText, hk, hks]

theorem finished_relined {d : Cursor} {k : Node} (h : finished (n, c) = .ok k)
    (hd : d.rest = c.rest) (m : Node) : k = n ∧ finished (m, d) = .ok m := by
  obtain ⟨c₁, h₁, h⟩ := Except.bind_eq_ok.1 h
  dsimp only at h
  split at h
  · next hnil =>
    cases h
    have hd : c.Extends [] d := hd.trans (List.append_nil _).symm
    obtain ⟨d₁, e₁, hd₁⟩ := hd.skipAside h₁ (.inr rfl)
    refine ⟨rfl, Except.bind_eq_ok.2 ⟨d₁, e₁, ?_⟩⟩
    have hempty : d₁.rest.isEmpty = true := by rw [hd₁, List.append_nil]; exact hnil
    rw [if_pos hempty]
    rfl
  · cases h

/-- **A comment or a processing instruction that is put into an element changes the document in its
lines only.** -/
theorem document_insert_aside {a : List Char} (h : document s = .error ⟨line, .unclosed tag⟩)
    (ha : AsideForm a)
    (hr : ∀ raw, raw <:+ s → '<' ∉ raw → decode (raw ++ r.takeWhile (· ≠ '<')) =
      decode raw ++ decode (r.takeWhile (· ≠ '<')))
    (hn : document (s ++ r) = .ok n) :
    ∃ m, document (s ++ (a ++ r)) = .ok m ∧ m.onLine 0 = n.onLine 0 := by
  obtain ⟨g, gs, -, hgo⟩ := document_append h
  obtain ⟨f, outer, c, hdoc, hf, hc⟩ := hgo r hr
  obtain ⟨f', outer', c', hdoc', hf', hc'⟩ := hgo (a ++ r) fun raw _ _ => by
    rw [takeWhile_of_head (ha.head r)]; simp [decode]
  rw [hdoc] at hn
  obtain ⟨⟨k, c₁⟩, hk, hfin⟩ := Except.bind_eq_ok.1 hn
  obtain ⟨m, d₁, hm, hline, hrest⟩ :=
    content_relined (d := c'.past a r) hk (hf'.trans hf.symm) hc.symm
  obtain ⟨rfl, hfin'⟩ := finished_relined hfin hrest m
  refine ⟨m, ?_, hline⟩
  rw [hdoc', content_aside ha hc']
  exact Except.bind_eq_ok.2 ⟨_, hm, hfin'⟩

/-! ### The text of an element -/

/-- The text that an element still gets before it ends, if it ends; the number says how many
elements are open inside of it. -/
def textAt : Nat → List Piece → Option (List Char)
  | _, [] => none
  | 0, .text s :: ps => (textAt 0 ps).map (s ++ ·)
  | k + 1, .text _ :: ps => textAt (k + 1) ps
  | 0, .ending _ :: _ => some []
  | k + 1, .ending _ :: ps => textAt k ps
  | k, .opened _ :: ps => textAt (k + 1) ps
  | k, .closed _ :: ps => textAt k ps
  | k, .aside :: ps => textAt k ps

theorem Node.mem_all_self (n : Node) : n ∈ n.all := by
  cases n
  exact List.mem_cons_self

theorem Node.mem_all_of_child {k : Node} (hk : k ∈ n.children) (hm : m ∈ k.all) : m ∈ n.all := by
  have hall : ∀ ns : List Node, k ∈ ns → m ∈ Node.allOf ns := by
    intro ns hns
    induction ns with
    | nil => cases hns
    | cons a ns ih =>
      rcases List.mem_cons.1 hns with rfl | hns
      · exact List.mem_append_left _ hm
      · exact List.mem_append_right _ (ih hns)
  cases n
  exact List.mem_cons_of_mem _ (hall _ hk)

/-- An element that stands below open ones. -/
def Holds (m : Node) (fs : List Frame) : Prop := ∃ f ∈ fs, ∃ k ∈ f.children, m ∈ k.all

theorem Holds.close (h : Holds m [f]) : m ∈ f.close.all := by
  obtain ⟨_, hf, k, hk, hm⟩ := h
  cases List.mem_singleton.1 hf
  exact Node.mem_all_of_child (List.mem_reverse.2 hk) hm

theorem Holds.addChild {fs : List Frame} (h : Holds m (f :: fs)) (k : Node) :
    Holds m (f.addChild k :: fs) := by
  obtain ⟨f', hf', k', hk', hm⟩ := h
  rcases List.mem_cons.1 hf' with rfl | hf'
  · exact ⟨_, List.mem_cons_self, k', List.mem_cons_of_mem _ hk', hm⟩
  · exact ⟨f', List.mem_cons_of_mem _ hf', k', hk', hm⟩

theorem Holds.addText {fs : List Frame} (h : Holds m (f :: fs)) (t : List Char) :
    Holds m (f.addText t :: fs) := by
  obtain ⟨f', hf', hm⟩ := h
  rcases List.mem_cons.1 hf' with rfl | hf'
  · exact ⟨_, List.mem_cons_self, hm⟩
  · exact ⟨f', List.mem_cons_of_mem _ hf', hm⟩

theorem Holds.tail {fs : List Frame} (h : Holds m fs) (f : Frame) : Holds m (f :: fs) := by
  obtain ⟨f', hf', hm⟩ := h
  exact ⟨f', List.mem_cons_of_mem _ hf', hm⟩

/-- An element that ends is below the one around it. -/
theorem Holds.of_mem_all {fs : List Frame} {k : Node} (hm : m ∈ k.all) :
    Holds m (f.addChild k :: fs) :=
  ⟨_, List.mem_cons_self, k, List.mem_cons_self, hm⟩

theorem Holds.ending {fs : List Frame} (h : Holds m (f :: g :: fs)) :
    Holds m (g.addChild f.close :: fs) := by
  obtain ⟨f', hf', hm⟩ := h
  rcases List.mem_cons.1 hf' with rfl | hf'
  · have hclose : Holds m [f'] := ⟨_, List.mem_cons_self, hm⟩
    exact .of_mem_all hclose.close
  · exact Holds.addChild ⟨f', hf', hm⟩ _

/-- What stands below open elements stays there. -/
theorem Holds.onto {fs gs : List Frame} {p : Piece} (h : Holds m fs) (hp : p.onto fs = some gs) :
    Holds m gs := by
  unfold Piece.onto at hp
  split at hp
  · cases hp; exact h.addText _
  · cases hp; exact h.tail _
  · cases hp; exact h.addChild _
  · split at hp
    · cases hp; exact h.ending
    · cases hp
  · cases hp; exact h
  · cases hp

theorem Holds.allOnto {fs gs : List Frame} {ps : List Piece} (h : Holds m fs)
    (hps : Piece.allOnto ps fs = some gs) : Holds m gs := by
  induction ps generalizing fs with
  | nil => cases hps; exact h
  | cons p ps ih =>
    obtain ⟨hs, hp, hps⟩ := Option.bind_eq_some_iff.1 hps
    exact ih (h.onto hp) hps

/-- An open element ends before the last one does, with the text that it gets. -/
theorem exists_textAt {ps : List Piece} {outer : List Frame} (f : Frame) (above : List Frame)
    (h : Piece.allOnto ps (above ++ f :: outer) = some [g]) :
    ∃ t, textAt above.length (ps ++ [.ending g.tag]) = some t ∧
      ∃ m ∈ g.close.all, m.tag = f.tag ∧ m.text.toList = trim (f.text ++ t) := by
  induction ps generalizing above f outer with
  | nil =>
    have hnil := Option.some.inj h
    cases above with
    | nil =>
      cases hnil
      exact ⟨[], rfl, _, Node.mem_all_self _, rfl, by simp [Frame.close]⟩
    | cons a above => cases above <;> cases hnil
  | cons p ps ih =>
    obtain ⟨hs, hp, hps⟩ := Option.bind_eq_some_iff.1 h
    cases above with
    | nil =>
      cases p with
      | text s =>
        cases hp
        obtain ⟨t, ht, hm⟩ := ih (f.addText s) [] hps
        refine ⟨s ++ t, congrArg (Option.map (s ++ ·)) ht, ?_⟩
        simpa [Frame.addText] using hm
      | opened k => cases hp; exact ih f [k] hps
      | closed k => cases hp; exact ih (f.addChild k.close) [] hps
      | ending tag =>
        cases outer with
        | nil => cases hp
        | cons k outer =>
          rw [List.nil_append, Piece.onto] at hp
          split at hp
          · cases hp
            have hm := Holds.allOnto (.of_mem_all (Node.mem_all_self f.close)) hps
            exact ⟨[], rfl, f.close, hm.close, rfl, by simp [Frame.close]⟩
          · cases hp
      | aside => cases hp; exact ih f [] hps
    | cons a above =>
      cases p with
      | text s => cases hp; exact ih f (a.addText s :: above) hps
      | opened k => cases hp; exact ih f (k :: a :: above) hps
      | closed k => cases hp; exact ih f (a.addChild k.close :: above) hps
      | ending tag =>
        cases above with
        | nil =>
          rw [List.singleton_append, Piece.onto] at hp
          split at hp
          · cases hp; exact ih (f.addChild a.close) [] hps
          · cases hp
        | cons b above =>
          rw [List.cons_append, List.cons_append, Piece.onto] at hp
          split at hp
          · cases hp; exact ih f (b.addChild a.close :: above) hps
          · cases hp
      | aside => cases hp; exact ih f (a :: above) hps

theorem textAt_unlined (k : Nat) (ps : List Piece) :
    textAt k (ps.map Piece.unlined) = textAt k ps := by
  fun_induction textAt k ps with
  | case1 => rfl
  | case2 s ps ih => exact congrArg (Option.map (s ++ ·)) ih
  | case3 k s ps ih => exact ih
  | case4 => rfl
  | case5 k tag ps ih => exact ih
  | case6 k f ps ih => cases k <;> exact ih
  | case7 k f ps ih => cases k <;> exact ih
  | case8 k ps ih => cases k <;> exact ih

/-- Only one piece begins at a place. -/
theorem Reads.unique {p q : Piece} {c' c'' : Cursor} (h : Reads c p c') (h' : Reads c q c'') :
    p = q ∧ c' = c'' := by
  cases h with
  | run ho =>
    cases h' with
    | run => exact ⟨rfl, rfl⟩
    | data ho' | opened ho' | closed ho' | ending ho' | comment ho' | instruction ho' =>
      cases ho.symm.trans ho'
  | data ho h =>
    cases h' with
    | data ho' h' => cases h.symm.trans h'; exact ⟨rfl, rfl⟩
    | run ho' | opened ho' | closed ho' | ending ho' | comment ho' | instruction ho' =>
      cases ho.symm.trans ho'
  | opened ho h =>
    cases h' with
    | opened ho' h' => cases h.symm.trans h'; exact ⟨rfl, rfl⟩
    | closed ho' h' => cases h.symm.trans h'
    | run ho' | data ho' | ending ho' | comment ho' | instruction ho' => cases ho.symm.trans ho'
  | closed ho h =>
    cases h' with
    | closed ho' h' => cases h.symm.trans h'; exact ⟨rfl, rfl⟩
    | opened ho' h' => cases h.symm.trans h'
    | run ho' | data ho' | ending ho' | comment ho' | instruction ho' => cases ho.symm.trans ho'
  | ending ho h =>
    cases h' with
    | ending ho' h' =>
      obtain ⟨found, c₁, h1, rfl, h2⟩ := closingTag_eq_ok_iff.1 h
      obtain ⟨found', c₁', h1', rfl, h2'⟩ := closingTag_eq_ok_iff.1 h'
      cases h1.symm.trans h1'
      cases h2.symm.trans h2'
      exact ⟨rfl, rfl⟩
    | run ho' | data ho' | opened ho' | closed ho' | comment ho' | instruction ho' =>
      cases ho.symm.trans ho'
  | comment ho h =>
    cases h' with
    | comment ho' h' => cases h.symm.trans h'; exact ⟨rfl, rfl⟩
    | run ho' | data ho' | opened ho' | closed ho' | ending ho' | instruction ho' =>
      cases ho.symm.trans ho'
  | instruction ho h =>
    cases h' with
    | instruction ho' h' => cases h.symm.trans h'; exact ⟨rfl, rfl⟩
    | run ho' | data ho' | opened ho' | closed ho' | ending ho' | comment ho' =>
      cases ho.symm.trans ho'

theorem ReadsAll.prefix_or_prefix {ps qs : List Piece} {c' c'' : Cursor} (h : ReadsAll c ps c')
    (h' : ReadsAll c qs c'') : ps <+: qs ∨ qs <+: ps := by
  induction h generalizing qs with
  | nil => exact .inl List.nil_prefix
  | cons hp _ ih =>
    cases h' with
    | nil => exact .inr List.nil_prefix
    | cons hq hqs =>
      obtain ⟨rfl, rfl⟩ := hp.unique hq
      exact (ih hqs).imp (List.prefix_cons_inj _).2 (List.prefix_cons_inj _).2

theorem textAt_append {k : Nat} {ps : List Piece} {t : List Char} (h : textAt k ps = some t)
    (qs : List Piece) : textAt k (ps ++ qs) = some t := by
  fun_induction textAt k ps generalizing t with
  | case1 => cases h
  | case2 s ps ih =>
    obtain ⟨t, ht, rfl⟩ := Option.map_eq_some_iff.1 h
    exact congrArg (Option.map (s ++ ·)) (ih ht)
  | case3 k s ps ih => exact ih h
  | case4 => exact h
  | case5 k tag ps ih => exact ih h
  | case6 k f ps ih => cases k <;> exact ih h
  | case7 k f ps ih => cases k <;> exact ih h
  | case8 k ps ih => cases k <;> exact ih h

/-- The text that an element still gets does not depend on how far the pieces are read. -/
theorem textAt_unique {ps qs : List Piece} {c' c'' : Cursor} {k : Nat} {t u : List Char}
    (h : ReadsAll c ps c') (h' : ReadsAll c qs c'') (ht : textAt k ps = some t)
    (hu : textAt k qs = some u) : t = u := by
  rcases h.prefix_or_prefix h' with ⟨rs, rfl⟩ | ⟨rs, rfl⟩
  · exact Option.some.inj ((textAt_append ht rs).symm.trans hu)
  · exact Option.some.inj (ht.symm.trans (textAt_append hu rs))

theorem ReadsAll.concat {ps : List Piece} {p : Piece} {c' c'' : Cursor} (h : ReadsAll c ps c')
    (h' : Reads c' p c'') : ReadsAll c (ps ++ [p]) c'' := by
  induction h with
  | nil => exact .cons h' .nil
  | cons hp _ ih => exact .cons hp (ih h')

/-- The text behind a place says what the element that is open there still gets, whatever it holds
already. -/
theorem exists_text_behind (r : List Char) :
    ∃ t, ∀ (f : Frame) (outer : List Frame) (c c' : Cursor) (n : Node), c.rest = r →
      content f outer c = .ok (n, c') →
        ∃ m ∈ n.all, m.tag = f.tag ∧ m.text.toList = trim (f.text ++ t) := by
  by_cases hr : ∃ (c c' : Cursor) (ps : List Piece) (t : List Char), c.rest = r ∧
      ReadsAll c ps c' ∧ textAt 0 ps = some t
  · obtain ⟨d, d', qs, t, hd, hqs, ht⟩ := hr
    refine ⟨t, fun f outer c c' n hc h => ?_⟩
    obtain ⟨c₁, g, ⟨ps, hps, honto⟩, hend, rfl⟩ := exists_ending h
    obtain ⟨u, hu, hm⟩ := exists_textAt f [] honto
    obtain ⟨qs', _, hqs', hunlined, -⟩ := hqs.relined (hc.trans hd.symm)
    have ht' : textAt 0 qs' = some t := by
      rw [← textAt_unlined, hunlined, textAt_unlined, ht]
    rwa [textAt_unique (hps.concat hend) hqs' hu ht'] at hm
  · refine ⟨[], fun f outer c c' n hc h => ?_⟩
    obtain ⟨c₁, g, ⟨ps, hps, honto⟩, hend, -⟩ := exists_ending h
    obtain ⟨u, hu, -⟩ := exists_textAt f [] honto
    exact absurd ⟨c, _, _, u, hc, hps.concat hend, hu⟩ hr

theorem takeWhile_section (body r : List Char) :
    ("<![CDATA[".toList ++ (body ++ "]]>".toList) ++ r).takeWhile (· ≠ '<') = [] := (rfl)

/-- **What stands in a section of plain character data is text of the element as it stands**, with
what stands before and behind it; only then the text is trimmed. -/
theorem document_section (h : document s = .error ⟨line, .unclosed tag⟩) :
    ∃ t₀, ∀ r, ∃ t₁, ∀ body n, ¬ "]]>".toList <:+: body →
      document (s ++ ("<![CDATA[".toList ++ (body ++ "]]>".toList) ++ r)) = .ok n →
        ∃ m ∈ n.all, m.tag = tag ∧ m.text.toList = trim (t₀ ++ body ++ t₁) := by
  obtain ⟨g, gs, rfl, hgo⟩ := document_append h
  refine ⟨g.text, fun r => ?_⟩
  obtain ⟨t, ht⟩ := exists_text_behind r
  refine ⟨t, fun body n hbody hn => ?_⟩
  obtain ⟨f, outer, c, hdoc, hf, hc⟩ := hgo _ fun raw _ _ => by
    rw [takeWhile_section body r]; simp [decode]
  rw [hdoc, content_section hbody rfl hc] at hn
  obtain ⟨⟨k, c₁⟩, hk, hfin⟩ := Except.bind_eq_ok.1 hn
  obtain ⟨rfl, -⟩ := finished_relined hfin rfl k
  obtain ⟨hfg, -⟩ := List.cons.inj hf
  rw [← hfg]
  exact ht (f.addText body) outer _ c₁ n rfl hk

end Progression.Markup
