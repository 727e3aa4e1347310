import Progression.Proofs.Markup.Extension
import Progression.Proofs.Markup.Writing

/-!
Content piece by piece. The reader of content takes one piece after the other (`Reads`), and what a
piece does to the elements that are open does not depend on where it stands (`Piece.onto`). So
content is read in two steps: its pieces are found, and then put on the stack one after the other.
-/

namespace Progression.Markup

open Progression.Text Cursor

/-! ### Pieces -/

/-- A piece of content. -/
inductive Piece where
  | text (s : List Char)
  | opened (f : Frame)
  | closed (f : Frame)
  | ending (tag : String)
  | aside

/-- The open elements, the innermost first, after a piece. The last one stays open. -/
def Piece.onto : Piece → List Frame → Option (List Frame)
  | text s, f :: fs => some (f.addText s :: fs)
  | opened g, f :: fs => some (g :: f :: fs)
  | closed g, f :: fs => some (f.addChild g.close :: fs)
  | ending tag, f :: g :: fs => if tag = f.tag then some (g.addChild f.close :: fs) else none
  | aside, f :: fs => some (f :: fs)
  | _, _ => none

/-- The open elements after some pieces. -/
def Piece.allOnto : List Piece → List Frame → Option (List Frame)
  | [], fs => some fs
  | p :: ps, fs => (p.onto fs).bind (allOnto ps)

/-- The piece that begins at a place, and the place after it. -/
inductive Reads : Cursor → Piece → Cursor → Prop
  | run {c : Cursor} : Opening.of c.rest = .text →
    Reads c (.text (decode (c.rest.takeWhile (· ≠ '<')))) (c.skipWhile (· ≠ '<'))
  | data {c c' : Cursor} {s : List Char} : Opening.of c.rest = .data →
    (⟨c.rest.drop 9, c.line⟩ : Cursor).takeUntil "]]>" "CDATA section" = .ok (s, c') →
    Reads c (.text s) c'
  | opened {c c' : Cursor} {f : Frame} : Opening.of c.rest = .element →
    openingTag c = .ok (f, false, c') → Reads c (.opened f) c'
  | closed {c c' : Cursor} {f : Frame} : Opening.of c.rest = .element →
    openingTag c = .ok (f, true, c') → Reads c (.closed f) c'
  | ending {c c' : Cursor} {tag : String} : Opening.of c.rest = .closing →
    closingTag tag ⟨c.rest.drop 2, c.line⟩ = .ok c' → Reads c (.ending tag) c'
  | comment {c c' : Cursor} {s : List Char} : Opening.of c.rest = .comment →
    c.takeUntil "-->" "comment" = .ok (s, c') → Reads c .aside c'
  | instruction {c c' : Cursor} {s : List Char} : Opening.of c.rest = .instruction →
    c.takeUntil "?>" "processing instruction" = .ok (s, c') → Reads c .aside c'

/-- The pieces between two places. -/
inductive ReadsAll : Cursor → List Piece → Cursor → Prop
  | nil {c : Cursor} : ReadsAll c [] c
  | cons {c c' c'' : Cursor} {p : Piece} {ps : List Piece} : Reads c p c' → ReadsAll c' ps c'' →
    ReadsAll c (p :: ps) c''

variable {c c' : Cursor} {p : Piece} {ps : List Piece} {f g : Frame}
  {fs gs outer outer' : List Frame}

theorem Piece.exists_cons_of_onto (h : p.onto fs = some gs) : ∃ g gs', gs = g :: gs' := by
  unfold Piece.onto at h
  split at h
  any_goals (cases h; exact ⟨_, _, rfl⟩)
  · split at h
    · cases h; exact ⟨_, _, rfl⟩
    · cases h
  · cases h

theorem content_of_reads (h : Reads c p c') (hp : p.onto (f :: outer) = some (g :: outer')) :
    content f outer c = content g outer' c' := by
  cases h with
  | run ho => cases hp; exact content_text ho
  | data ho h => cases hp; exact content_data ho h
  | opened ho h => cases hp; exact content_element ho h
  | closed ho h => cases hp; exact content_element ho h
  | ending ho h =>
    cases outer with
    | nil => cases hp
    | cons f' outer =>
      rw [Piece.onto] at hp
      split at hp
      · next ht =>
        cases hp
        exact content_closing ho (ht ▸ h)
      · cases hp
  | comment ho h => cases hp; exact content_comment ho h
  | instruction ho h => cases hp; exact content_instruction ho h

/-- Content goes on behind its first pieces, with what they put on the stack. -/
theorem content_of_readsAll (h : ReadsAll c ps c')
    (hp : Piece.allOnto ps (f :: outer) = some (g :: outer')) :
    content f outer c = content g outer' c' := by
  induction h generalizing f outer with
  | nil => cases hp; rfl
  | cons h _ ih =>
    obtain ⟨fs, h1, hp⟩ := Option.bind_eq_some_iff.1 hp
    obtain ⟨f', outer'', rfl⟩ := Piece.exists_cons_of_onto h1
    rw [content_of_reads h h1, ih hp]

/-! ### Where reading stops -/

/-- A result that is not the fault of an element that is left open. -/
def Spares {α : Type} (x : Except Failure α) : Prop :=
  ∀ e, x = .error e → ∀ tag, e.fault ≠ .unclosed tag

section Spares

variable {α β : Type}

theorem Spares.ok (a : α) : Spares (.ok a) := fun _ h => nomatch h

theorem Spares.error {x : Except Failure α} {e : Failure} (h : Spares x) (he : x = .error e) :
    Spares (.error e : Except Failure β) := by
  rintro _ ⟨⟩
  exact h e he

theorem Spares.fail {fault : Fault} (h : ∀ tag, fault ≠ .unclosed tag) :
    Spares (c.fail fault : Except Failure α) := by
  rintro _ ⟨⟩
  exact h

theorem Spares.bind {x : Except Failure α} {q : α → Except Failure β} (hx : Spares x)
    (hq : ∀ a, Spares (q a)) : Spares (x >>= q) := by
  cases x with
  | error e => exact hx.error rfl
  | ok a => exact hq a

theorem spares_expect (token : String) : Spares (c.expect token) := by
  unfold expect
  split
  · exact .ok _
  · exact .fail (by simp)

theorem spares_takeUntil (mark what : String) : Spares (c.takeUntil mark what) := by
  unfold takeUntil
  split
  · exact .ok _
  · exact .fail (by simp)

theorem spares_name : Spares c.name := by
  unfold name
  dsimp only
  split
  · exact .fail (by simp)
  · exact .ok _

theorem spares_oneAttribute : Spares (oneAttribute c) := by
  refine spares_name.bind fun _ => (spares_expect "=").bind fun c₂ => ?_
  extract_lets c₃
  split
  · split
    · refine (spares_takeUntil _ _).bind fun _ => ?_
      dsimp only
      split
      · exact .fail (by simp)
      · exact .ok _
    · exact .fail (by simp)
  · exact .fail (by simp)

theorem spares_attributes (tag : String) (found : List (String × String)) :
    Spares (attributes tag found c) := by
  fun_induction attributes tag found c with
  | case1 => exact .fail (by simp)
  | case2 => exact (spares_expect "/>").bind fun _ => .ok _
  | case3 => exact .ok _
  | case4 _ _ _ _ _ _ _ e he => exact spares_oneAttribute.error he
  | case5 => exact .fail (by simp)
  | case6 _ _ _ _ _ _ _ _ _ _ _ _ _ ih => exact ih

theorem spares_openingTag : Spares (openingTag c) :=
  (spares_expect "<").bind fun _ => spares_name.bind fun _ =>
    (spares_attributes _ _).bind fun _ => .ok _

theorem spares_closingTag (tag : String) : Spares (closingTag tag c) := by
  refine spares_name.bind fun _ => ?_
  dsimp only
  split
  · exact spares_expect ">"
  · exact .fail (by simp)

theorem spares_skipAside : Spares (skipAside c) := by
  fun_induction skipAside c with
  | case1 => exact .ok _
  | case2 _ _ _ _ e he => exact (spares_takeUntil _ _).error he
  | case3 => exact .ok _
  | case4 _ _ _ _ _ _ _ _ ih => exact ih

end Spares

/-- The pieces from a place on bring the open elements to others. -/
def Brings (fs : List Frame) (c : Cursor) (gs : List Frame) (c' : Cursor) : Prop :=
  ∃ ps, ReadsAll c ps c' ∧ Piece.allOnto ps fs = some gs

theorem Brings.refl : Brings fs c fs c := ⟨[], .nil, rfl⟩

theorem Brings.head {hs : List Frame} {c'' : Cursor} (h : Reads c p c') (hp : p.onto fs = some gs)
    (h' : Brings gs c' hs c'') : Brings fs c hs c'' := by
  obtain ⟨ps, hps, honto⟩ := h'
  exact ⟨p :: ps, .cons h hps, by rw [Piece.allOnto, hp]; exact honto⟩

/-- How content is read from a place on: the text ends and leaves an element open, or the last
element that is open ends, or there is another fault. -/
inductive Stops (fs : List Frame) (c : Cursor) : Except Failure (Node × Cursor) → Prop
  | unclosed {g : Frame} {outer : List Frame} {c₁ : Cursor} : Brings fs c (g :: outer) c₁ →
    c₁.rest = [] → Stops fs c (c₁.fail (.unclosed g.tag))
  | ended {g : Frame} {c₁ c₂ : Cursor} : Brings fs c [g] c₁ → Reads c₁ (.ending g.tag) c₂ →
    Stops fs c (.ok (g.close, c₂))
  | failed {e : Failure} : (∀ tag, e.fault ≠ .unclosed tag) → Stops fs c (.error e)

theorem Stops.head {x : Except Failure (Node × Cursor)} (h : Reads c p c')
    (hp : p.onto fs = some gs) (hs : Stops gs c' x) : Stops fs c x := by
  cases hs with
  | unclosed hb hr => exact .unclosed (.head h hp hb) hr
  | ended hb he => exact .ended (.head h hp hb) he
  | failed he => exact .failed he

theorem rest_eq_nil_of_ending {s : List Char} (h : Opening.of s = .ending) : s = [] := by
  cases s with
  | nil => rfl
  | cons c s =>
    rw [Opening.of] at h
    repeat (split at h; cases h)
    cases h

theorem content_stops (f : Frame) (outer : List Frame) (c : Cursor) :
    Stops (f :: outer) c (content f outer c) := by
  fun_induction content f outer c with
  | case1 f outer c ho => exact .unclosed .refl (rest_eq_nil_of_ending ho)
  | case2 f outer c ho e he => exact .failed (spares_closingTag _ e he)
  | case3 f c ho c' h => exact .ended .refl (.ending ho h)
  | case4 f c ho c' h g outer ih => exact ih.head (.ending ho h) (if_pos rfl)
  | case5 f outer c ho e he => exact .failed (spares_takeUntil _ _ e he)
  | case6 f outer c ho s c' h ih => exact ih.head (.comment ho h) rfl
  | case7 f outer c ho e he => exact .failed (spares_takeUntil _ _ e he)
  | case8 f outer c ho s c' h ih => exact ih.head (.data ho h) rfl
  | case9 f outer c ho e he => exact .failed (spares_takeUntil _ _ e he)
  | case10 f outer c ho s c' h ih => exact ih.head (.instruction ho h) rfl
  | case11 f outer c ho e he => exact .failed (spares_openingTag e he)
  | case12 f outer c ho g c' h ih => exact ih.head (.closed ho h) rfl
  | case13 f outer c ho g closed c' h hb ih =>
    cases closed with
    | true => exact absurd rfl hb
    | false => exact ih.head (.opened ho h) rfl
  | case14 f outer c ho ih => exact ih.head (.run ho) rfl

/-! ### Up to lines -/

theorem onLines_eq_map (line : Nat) (ns : List Node) :
    Node.onLines line ns = ns.map (Node.onLine line) := by
  induction ns with
  | nil => rfl
  | cons n ns ih => rw [Node.onLines, ih, List.map_cons]

/-- An open element but for the lines. -/
def Frame.unlined (f : Frame) : Frame :=
  { f with line := 0, children := Node.onLines 0 f.children }

/-- A piece but for the lines. -/
def Piece.unlined : Piece → Piece
  | opened f => opened f.unlined
  | closed f => closed f.unlined
  | p => p

@[simp] theorem Frame.unlined_tag (f : Frame) : f.unlined.tag = f.tag := rfl

theorem Frame.unlined_addText (f : Frame) (s : List Char) :
    (f.addText s).unlined = f.unlined.addText s := rfl

theorem Frame.unlined_addChild (f : Frame) (n : Node) :
    (f.addChild n).unlined = f.unlined.addChild (n.onLine 0) := rfl

theorem Frame.onLine_close (f : Frame) : f.close.onLine 0 = f.unlined.close := by
  show Node.mk _ _ _ (Node.onLines 0 f.children.reverse) 0 =
    Node.mk _ _ _ (Node.onLines 0 f.children).reverse 0
  rw [onLines_eq_map, onLines_eq_map, List.map_reverse]
  rfl

/-- What a piece does to the open elements but for the lines, it does so but for its own. -/
theorem Piece.map_unlined_onto (p : Piece) (fs : List Frame) :
    (p.onto fs).map (List.map Frame.unlined) = p.unlined.onto (fs.map Frame.unlined) := by
  cases fs with
  | nil => cases p <;> rfl
  | cons f fs =>
    cases p with
    | text s => rfl
    | opened g => rfl
    | closed g =>
      show some ((f.addChild g.close).unlined :: _) = some (f.unlined.addChild g.unlined.close :: _)
      rw [Frame.unlined_addChild, Frame.onLine_close]
    | ending tag =>
      cases fs with
      | nil => rfl
      | cons f' fs =>
        by_cases ht : tag = f.tag
        · simp [Piece.onto, Piece.unlined, ht, Frame.unlined_addChild, Frame.onLine_close]
        · simp [Piece.onto, Piece.unlined, ht]
    | aside => rfl

theorem Piece.map_unlined_allOnto (ps : List Piece) (fs : List Frame) :
    (allOnto ps fs).map (List.map Frame.unlined) =
      allOnto (ps.map Piece.unlined) (fs.map Frame.unlined) := by
  induction ps generalizing fs with
  | nil => rfl
  | cons p ps ih =>
    rw [List.map_cons, allOnto, allOnto, ← map_unlined_onto]
    cases p.onto fs with
    | none => rfl
    | some gs => exact ih gs

/-- The same pieces, but for the lines, on the same open elements. -/
theorem Piece.allOnto_alike {qs : List Piece} {hs : List Frame}
    (hps : qs.map Piece.unlined = ps.map Piece.unlined)
    (hfs : gs.map Frame.unlined = fs.map Frame.unlined) (h : allOnto ps fs = some hs) :
    ∃ hs', allOnto qs gs = some hs' ∧ hs'.map Frame.unlined = hs.map Frame.unlined := by
  have hq := map_unlined_allOnto qs gs
  rw [hps, hfs, ← map_unlined_allOnto, h] at hq
  exact Option.map_eq_some_iff.1 hq

theorem Piece.allOnto_append (ps qs : List Piece) (fs : List Frame) :
    allOnto (ps ++ qs) fs = (allOnto ps fs).bind (allOnto qs) := by
  induction ps generalizing fs with
  | nil => rfl
  | cons p ps ih =>
    rw [List.cons_append, allOnto, allOnto, Option.bind_assoc]
    exact congrArg _ (funext ih)

theorem Reads.leaves (h : Reads c p c') : c.Leaves c' := by
  have hdrop (k : Nat) : c.Leaves ⟨c.rest.drop k, c.line⟩ := List.drop_suffix k _
  cases h with
  | run ho => exact .skipWhile _
  | data ho h => exact (hdrop 9).trans (.takeUntil h)
  | opened ho h => exact .openingTag h
  | closed ho h => exact .openingTag h
  | ending ho h => exact (hdrop 2).trans (.closingTag h)
  | comment ho h => exact .takeUntil h
  | instruction ho h => exact .takeUntil h

theorem Cursor.Extends.drop {r : List Char} {d : Cursor} (h : c.Extends r d) {k : Nat}
    (hk : k ≤ c.rest.length) :
    Cursor.Extends r ⟨c.rest.drop k, c.line⟩ ⟨d.rest.drop k, d.line⟩ := by
  show d.rest.drop k = c.rest.drop k ++ r
  rw [h, List.drop_append_of_le_length hk]

theorem Cursor.Extends.opening {r : List Char} {d : Cursor} (h : c.Extends r d)
    (hc : '>' ∈ c.rest) : Opening.of d.rest = Opening.of c.rest := by
  rw [h, Opening.of_append hc]

/-- A piece is read the same in a longer text, but for its line, unless it is a run of text that
might go on. -/
theorem Reads.extends {r : List Char} {d : Cursor} (h : Reads c p c') (hd : c.Extends r d)
    (hr : Opening.of c.rest = .text → c'.rest ≠ [] ∨ ∀ x ∈ r.head?, x = '<') :
    ∃ q d', Reads d q d' ∧ q.unlined = p.unlined ∧ c'.Extends r d' := by
  cases h with
  | run ho =>
    have hskip : (c.skipWhile (· ≠ '<')).rest ≠ [] ∨
        ∀ x ∈ r.head?, decide (x ≠ '<') = false := by
      simpa using hr ho
    have hod : Opening.of d.rest = .text := by
      obtain ⟨x, s, hx, hne⟩ := Opening.exists_of_text ho
      rw [hd, hx, List.cons_append, Opening.of, if_pos hne]
    exact ⟨_, _, .run hod, by rw [hd.takeWhile hskip], hd.skipWhile hskip⟩
  | data ho h =>
    have hgt : '>' ∈ c.rest := List.mem_of_mem_drop (subset_of_takeUntil h (by decide))
    have hlen := length_of_takeUntil h
    rw [List.length_drop, show "]]>".toList.length = 3 from rfl] at hlen
    obtain ⟨d', e, hd'⟩ := (hd.drop (by omega)).takeUntil h
    exact ⟨_, d', .data (hd.opening hgt ▸ ho) e, rfl, hd'⟩
  | opened ho h =>
    obtain ⟨x, s, hx, hxn⟩ := exists_cons_of_openingTag h
    obtain ⟨d', e, hd'⟩ := hd.openingTag h
    exact ⟨_, d', .opened (by rw [hd, hx]; exact opening_element hxn _) e, rfl, hd'⟩
  | closed ho h =>
    obtain ⟨x, s, hx, hxn⟩ := exists_cons_of_openingTag h
    obtain ⟨d', e, hd'⟩ := hd.openingTag h
    exact ⟨_, d', .closed (by rw [hd, hx]; exact opening_element hxn _) e, rfl, hd'⟩
  | ending ho h =>
    have hlen := length_of_closingTag h
    rw [List.length_drop] at hlen
    obtain ⟨d', e, hd'⟩ := (hd.drop (by omega)).closingTag h
    have hgt : '>' ∈ c.rest := List.mem_of_mem_drop (mem_of_closingTag h)
    exact ⟨_, d', .ending (hd.opening hgt ▸ ho) e, rfl, hd'⟩
  | comment ho h =>
    obtain ⟨d', e, hd'⟩ := hd.takeUntil h
    exact ⟨_, d', .comment (hd.opening (subset_of_takeUntil h (by decide)) ▸ ho) e, rfl, hd'⟩
  | instruction ho h =>
    obtain ⟨d', e, hd'⟩ := hd.takeUntil h
    exact ⟨_, d', .instruction (hd.opening (subset_of_takeUntil h (by decide)) ▸ ho) e, rfl, hd'⟩

/-- From another line the same pieces are read, but for their lines. -/
theorem Reads.relined {d : Cursor} (h : Reads c p c') (hd : d.rest = c.rest) :
    ∃ q d', Reads d q d' ∧ q.unlined = p.unlined ∧ d'.rest = c'.rest := by
  have hd : c.Extends [] d := hd.trans (List.append_nil _).symm
  obtain ⟨q, d', hq, hqp, hd'⟩ := h.extends hd fun _ => .inr (by simp)
  exact ⟨q, d', hq, hqp, hd'.trans (List.append_nil _)⟩

theorem ReadsAll.relined {d : Cursor} (h : ReadsAll c ps c') (hd : d.rest = c.rest) :
    ∃ qs d', ReadsAll d qs d' ∧ qs.map Piece.unlined = ps.map Piece.unlined ∧
      d'.rest = c'.rest := by
  induction h generalizing d with
  | nil => exact ⟨[], d, .nil, rfl, hd⟩
  | cons hp _ ih =>
    obtain ⟨q, d₁, hq, hqp, hd₁⟩ := hp.relined hd
    obtain ⟨qs, d₂, hqs, hqsps, hd₂⟩ := ih hd₁
    exact ⟨q :: qs, d₂, .cons hq hqs, by rw [List.map_cons, hqp, hqsps, List.map_cons], hd₂⟩

theorem Reads.rest_ne_nil (h : Reads c p c') : c.rest ≠ [] := by
  intro hnil
  have ho : Opening.of c.rest = .ending := by rw [hnil]; rfl
  cases h with
  | run ho' | data ho' | opened ho' | closed ho' | ending ho' | comment ho' | instruction ho' =>
    cases ho.symm.trans ho'

/-- Pieces that end with the text: all but a last run of text are read the same in a longer text. -/
theorem ReadsAll.extends_run (h : ReadsAll c ps c') (hend : c'.rest = []) :
    ∃ ps₀ raw, '<' ∉ raw ∧ raw <:+ c.rest ∧
      (∀ f fs, Piece.allOnto ps (f :: fs) = Piece.allOnto (ps₀ ++ [.text (decode raw)]) (f :: fs)) ∧
      ∀ r d, c.Extends r d → ∃ qs d', ReadsAll d qs d' ∧
        qs.map Piece.unlined = ps₀.map Piece.unlined ∧ d'.rest = raw ++ r := by
  induction h with
  | nil =>
    refine ⟨[], [], by simp, List.nil_suffix, fun f fs => ?_, fun r d hd => ?_⟩
    · simp [Piece.allOnto, Piece.onto, Frame.addText, decode]
    · refine ⟨[], d, .nil, rfl, ?_⟩
      rw [hd, hend]
  | @cons c c₁ c₂ p ps hp hps ih =>
    by_cases hrun : Opening.of c.rest = .text ∧ c₁.rest = []
    · -- This is the last run, and nothing is left behind it.
      obtain ⟨ho, hnil⟩ := hrun
      have hlast : ps = [] := by
        cases hps with
        | nil => rfl
        | cons hq _ => exact absurd hnil hq.rest_ne_nil
      cases hp with
      | run =>
        have hall : c.rest.takeWhile (· ≠ '<') = c.rest :=
          List.takeWhile_eq_self_iff.2 (List.dropWhile_eq_nil_iff.1 hnil)
        refine ⟨[], c.rest, ?_, List.suffix_refl _, fun f fs => by rw [hlast, hall]; rfl,
          fun r d hd => ⟨[], d, .nil, rfl, hd⟩⟩
        exact fun hm => by simpa using List.dropWhile_eq_nil_iff.1 hnil _ hm
      | data ho' | opened ho' | closed ho' | ending ho' | comment ho' | instruction ho' =>
        cases ho.symm.trans ho'
    · obtain ⟨ps₀, raw, hlt, hsuf, honto, hext⟩ := ih hend
      refine ⟨p :: ps₀, raw, hlt, hsuf.trans hp.leaves, fun f fs => ?_, fun r d hd => ?_⟩
      · rw [List.cons_append, Piece.allOnto, Piece.allOnto]
        cases hq : p.onto (f :: fs) with
        | none => rfl
        | some gs =>
          obtain ⟨g, gs, rfl⟩ := Piece.exists_cons_of_onto hq
          exact honto g gs
      · obtain ⟨q, d₁, hq, hqp, hd₁⟩ := hp.extends hd fun ho => .inl fun hnil => hrun ⟨ho, hnil⟩
        obtain ⟨qs, d₂, hqs, hqsps, hd₂⟩ := hext r d₁ hd₁
        exact ⟨q :: qs, d₂, .cons hq hqs, by simp [hqp, hqsps], hd₂⟩

/-! ### Content -/

theorem content_of_ending (h : Reads c (.ending f.tag) c') :
    content f [] c = .ok (f.close, c') := by
  cases h with
  | ending ho h => exact content_closing ho h

/-- Content that is read is read by its pieces, and then the last open element ends. -/
theorem exists_ending {n : Node} (h : content f outer c = .ok (n, c')) :
    ∃ c₁ g, Brings (f :: outer) c [g] c₁ ∧ Reads c₁ (.ending g.tag) c' ∧ g.close = n := by
  have hstops := content_stops f outer c
  generalize content f outer c = x at h hstops
  cases hstops with
  | unclosed => cases h
  | ended hb he => cases h; exact ⟨_, _, hb, he, rfl⟩
  | failed => cases h

/-- Content is read the same from another line, but for the lines. -/
theorem content_relined {d : Cursor} {n : Node} (h : content f outer c = .ok (n, c'))
    (halike : (g :: outer').map Frame.unlined = (f :: outer).map Frame.unlined)
    (hd : d.rest = c.rest) :
    ∃ m d', content g outer' d = .ok (m, d') ∧ m.onLine 0 = n.onLine 0 ∧ d'.rest = c'.rest := by
  obtain ⟨c₁, k, ⟨ps, hps, honto⟩, hend, rfl⟩ := exists_ending h
  obtain ⟨qs, d₁, hqs, hqsps, hd₁⟩ := hps.relined hd
  obtain ⟨ks, hks, hmap⟩ := Piece.allOnto_alike hqsps halike honto
  obtain ⟨k', rfl, hk⟩ := List.map_eq_singleton_iff.1 hmap
  obtain ⟨q, d₂, hq, hqk, hd₂⟩ := hend.relined hd₁
  have htag : k'.unlined.tag = k.unlined.tag := by rw [hk]
  rw [Frame.unlined_tag, Frame.unlined_tag] at htag
  obtain rfl : q = .ending k'.tag := by
    rw [htag]
    cases q <;> cases hqk
    rfl
  refine ⟨k'.close, d₂, ?_, ?_, hd₂⟩
  · rw [content_of_readsAll hqs hks, content_of_ending hq]
  · rw [Frame.onLine_close, Frame.onLine_close, hk]

end Progression.Markup
