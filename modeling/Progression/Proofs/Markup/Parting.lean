import Progression.Proofs.Markup.Expansion
import Progression.Proofs.Markup.Extension

/-!
Texts parted at a place. Where no reference spans the place (`Spans`), the parts are expanded and
decoded each by itself; and what is put at the place between two marks is expanded by itself
(`passes_enclosed`).
-/

namespace Progression.Markup

open Progression.Text

/-! ### References at a place -/

/-- A reference whose name is of a kind begins in a text and ends in the one behind it. -/
def Spans (kind : List Char → Prop) (s t : List Char) : Prop :=
  ∃ a n m b, s = a ++ '&' :: n ∧ t = m ++ ';' :: b ∧ kind (n ++ m)

variable {kind : List Char → Prop} {s s' t t' : List Char} {es : List Entity}

/-- A name that makes a reference, to an entity or to a character. -/
def IsReference (name : List Char) : Prop :=
  IsEntityName name ∨ (referenced? name).isSome = true

namespace Spans

theorem mono {kind' : List Char → Prop} (h : Spans kind s t) (hk : ∀ n, kind n → kind' n) :
    Spans kind' s t := by
  obtain ⟨a, n, m, b, hs, ht, hn⟩ := h
  exact ⟨a, n, m, b, hs, ht, hk _ hn⟩

theorem mono_left (h : Spans kind s t) (hs : s <:+ s') : Spans kind s' t := by
  obtain ⟨a, n, m, b, rfl, ht, hn⟩ := h
  obtain ⟨u, rfl⟩ := hs
  exact ⟨u ++ a, n, m, b, by simp, ht, hn⟩

theorem mono_right (h : Spans kind s t) (ht : t <+: t') : Spans kind s t' := by
  obtain ⟨a, n, m, b, hs, rfl, hn⟩ := h
  obtain ⟨u, rfl⟩ := ht
  exact ⟨a, n, m, b ++ u, hs, by simp, hn⟩

theorem amp (h : Spans kind s t) : '&' ∈ s := by
  obtain ⟨a, n, m, b, rfl, -⟩ := h
  simp

end Spans

/-- A reference that begins before the place ends before it. -/
theorem reference?_of_not_spans (h : ¬ Spans IsEntityName ('&' :: s) t) :
    reference? (s ++ t) = (reference? s).map fun p => (p.1, p.2 ++ t) := by
  cases hs : reference? s with
  | some p =>
    obtain ⟨name, rest⟩ := p
    obtain ⟨hn, rfl⟩ := eq_of_reference? hs
    have hassoc : name ++ ';' :: rest ++ t = name ++ ';' :: (rest ++ t) := by simp
    rw [hassoc, reference?_append hn]
    rfl
  | none =>
    rw [Option.map_none, Option.eq_none_iff_forall_ne_some]
    rintro ⟨name, rest⟩ hst
    obtain ⟨hn, heq⟩ := eq_of_reference? hst
    rcases List.append_eq_append_iff.1 heq with ⟨m, rfl, ht⟩ | ⟨u, rfl, hu⟩
    · exact h ⟨[], s, m, rest, rfl, ht, hn⟩
    · cases u with
      | nil => exact h ⟨[], name, [], rest, by simp, hu.symm, by simpa using hn⟩
      | cons x u =>
        obtain ⟨rfl, -⟩ := List.cons.inj hu
        cases (reference?_append hn u).symm.trans hs

theorem substitute_amp (h : reference? s = none) :
    substitute es ('&' :: s) = '&' :: substitute es s := by
  rw [substitute, if_pos rfl]
  split
  · next h' => cases h.symm.trans h'
  · rfl

theorem substitute_append (h : ¬ Spans IsEntityName s t) :
    substitute es (s ++ t) = substitute es s ++ substitute es t := by
  induction s using substitute.induct with
  | case1 => rw [substitute]; rfl
  | case2 s name rest hname ih =>
    obtain ⟨hn, rfl⟩ := eq_of_reference? hname
    have hsuf : rest <:+ '&' :: (name ++ ';' :: rest) := ⟨'&' :: (name ++ [';']), by simp⟩
    have hassoc : '&' :: (name ++ ';' :: rest) ++ t = '&' :: (name ++ ';' :: (rest ++ t)) := by simp
    rw [hassoc, substitute_reference hn, substitute_reference hn,
      ih fun hs => h (hs.mono_left hsuf), List.append_assoc]
  | case3 s hnone ih =>
    have happ : reference? (s ++ t) = none := by rw [reference?_of_not_spans h, hnone]; rfl
    rw [List.cons_append, substitute_amp happ, substitute_amp hnone,
      ih fun hs => h (hs.mono_left (List.suffix_cons _ s))]
    rfl
  | case4 c s hc ih =>
    rw [List.cons_append, substitute_cons hc, substitute_cons hc,
      ih fun hs => h (hs.mono_left (List.suffix_cons c s))]
    rfl

theorem references_append_of_not_spans (h : ¬ Spans IsEntityName s t) :
    references (s ++ t) = references s ++ references t := by
  induction s with
  | nil => rfl
  | cons c s ih =>
    have ih := ih fun hs => h (hs.mono_left (List.suffix_cons c s))
    rw [List.cons_append, references, references, ih]
    by_cases hc : c = '&'
    · subst hc
      rw [if_pos rfl, if_pos rfl, reference?_of_not_spans h]
      cases reference? s <;> rfl
    · rw [if_neg hc, if_neg hc]

theorem decode_amp_some {name rest : List Char} {d : Char} (hcut : cut? [';'] s = some (name, rest))
    (hd : referenced? name = some d) : decode ('&' :: s) = d :: decode rest := by
  rw [decode, if_pos rfl]
  split
  · next heq =>
    cases hcut.symm.trans heq
    rw [hd]
  · next heq => cases hcut.symm.trans heq

theorem decode_amp_none
    (h : ∀ name rest, cut? [';'] s = some (name, rest) → referenced? name = none) :
    decode ('&' :: s) = '&' :: decode s := by
  rw [decode, if_pos rfl]
  split
  · next heq => rw [h _ _ heq]
  · rfl

/-- Where no reference spans a place, the texts before it and behind it are decoded each by
itself. -/
theorem decode_append (h : ¬ Spans (fun n => (referenced? n).isSome = true) s t) :
    decode (s ++ t) = decode s ++ decode t := by
  induction s using decode.induct with
  | case1 => rw [decode]; rfl
  | case2 s name rest hcut d hd ih =>
    have hsuf : rest <:+ '&' :: s := ⟨'&' :: (name ++ [';']), by simp [eq_of_cut? hcut]⟩
    rw [List.cons_append, decode_amp_some (cut?_extend hcut t) hd, decode_amp_some hcut hd,
      ih fun hs => h (hs.mono_left hsuf)]
    rfl
  | case3 s name rest hcut hnone ih =>
    have hs : ∀ name' rest', cut? [';'] s = some (name', rest') → referenced? name' = none := by
      intro name' rest' hcut'
      cases hcut.symm.trans hcut'
      exact hnone
    have hst : ∀ name' rest', cut? [';'] (s ++ t) = some (name', rest') →
        referenced? name' = none := by
      intro name' rest' hcut'
      cases (cut?_extend hcut t).symm.trans hcut'
      exact hnone
    rw [List.cons_append, decode_amp_none hst, decode_amp_none hs,
      ih fun hs => h (hs.mono_left (List.suffix_cons _ s))]
    rfl
  | case4 s hcut ih =>
    have hst : ∀ name rest, cut? [';'] (s ++ t) = some (name, rest) → referenced? name = none := by
      intro name rest hcut'
      rw [Option.eq_none_iff_forall_ne_some]
      intro d hd
      -- The reference ends behind the place.
      have heq := eq_of_cut? hcut'
      rw [List.append_assoc, List.append_eq_append_iff] at heq
      rcases heq with ⟨m, rfl, ht⟩ | ⟨u, rfl, hu⟩
      · exact h ⟨[], s, m, rest, rfl, ht, by simp [hd]⟩
      · cases u with
        | nil => exact h ⟨[], name, [], rest, by simp, hu.symm, by simp [hd]⟩
        | cons x u =>
          obtain ⟨rfl, -⟩ := List.cons.inj hu
          cases (cut?_singleton (not_mem_of_cut? hcut') u).symm.trans hcut
    have hs : ∀ name rest, cut? [';'] s = some (name, rest) → referenced? name = none := by
      intro name rest hcut'
      cases hcut.symm.trans hcut'
    rw [List.cons_append, decode_amp_none hst, decode_amp_none hs,
      ih fun hs => h (hs.mono_left (List.suffix_cons _ s))]
    rfl
  | case5 c s hc ih =>
    rw [List.cons_append, decode_cons hc, decode_cons hc,
      ih fun hs => h (hs.mono_left (List.suffix_cons c s))]
    rfl

/-- The end of a text, and what stands behind it up to the next `<`, are decoded each by itself. -/
theorem decode_run_append (h : ¬ Spans (fun n => (referenced? n).isSome = true) s t)
    {raw : List Char} (hraw : raw <:+ s) : decode (raw ++ t.takeWhile (· ≠ '<')) =
      decode raw ++ decode (t.takeWhile (· ≠ '<')) :=
  decode_append fun hs => h ((hs.mono_left hraw).mono_right (List.takeWhile_prefix _))

/-- Where no reference spans a place in any pass, the passes go over both texts each by itself. -/
theorem passes_append {k : Nat}
    (h : ∀ j < k, ¬ Spans IsEntityName (passes es j s) (passes es j t)) :
    passes es k (s ++ t) = passes es k s ++ passes es k t := by
  induction k generalizing s t with
  | zero => rfl
  | succ k ih =>
    have h₀ : ¬ Spans IsEntityName s t := h 0 (by omega)
    rw [passes, substitute_append h₀, ih fun j hj => h (j + 1) (by omega)]
    rfl

/-! ### Between two marks -/

/-- Marks around a text: the first begins with `<`, the last ends with `>`, and no reference reaches
into them. -/
structure Encloses (opening closing : List Char) : Prop where
  begins : ∃ o, opening = '<' :: o
  ends : ∃ u, closing = u ++ ['>'] ∧ ';' ∉ u
  plain : '&' ∉ opening ∧ '&' ∉ closing

/-- A comment with a text in it. -/
def comment (body : List Char) : List Char := "<!--".toList ++ (body ++ "-->".toList)

/-- A section of plain character data with a text in it. -/
def dataSection (body : List Char) : List Char := "<![CDATA[".toList ++ (body ++ "]]>".toList)

theorem encloses_comment : Encloses "<!--".toList "-->".toList :=
  ⟨⟨_, rfl⟩, ⟨"--".toList, by decide⟩, by decide⟩

theorem encloses_section : Encloses "<![CDATA[".toList "]]>".toList :=
  ⟨⟨_, rfl⟩, ⟨"]]".toList, by decide⟩, by decide⟩

theorem substitute_of_not_mem (h : '&' ∉ s) : substitute es s = s := by
  induction s with
  | nil => rw [substitute]
  | cons c s ih =>
    obtain ⟨hc, hs⟩ := List.ne_and_not_mem_of_not_mem_cons h
    rw [substitute_cons (Ne.symm hc), ih hs]

/-- A text without references in front is kept. -/
theorem passes_plain_append (h : '&' ∉ s) (k : Nat) (t : List Char) :
    passes es k (s ++ t) = s ++ passes es k t := by
  rw [passes_append fun j _ hs => ?_, passes_of_fixed (substitute_of_not_mem h)]
  rw [passes_of_fixed (substitute_of_not_mem h)] at hs
  exact h hs.amp

/-- No name goes on over a character that is in none. -/
theorem not_spans_of_barrier {u : List Char} {x : Char} (hu : ';' ∉ u) (hx : x ∈ ['<', '>']) :
    ¬ Spans IsEntityName s (u ++ x :: t) := by
  have hne : x ≠ ';' := by rintro rfl; simp at hx
  have hname : ∀ name, IsEntityName name → x ∉ name := by
    have hall : ∀ x ∈ ['<', '>'],
        isEntityPart x = false ∧ (isAsciiLetter x || x == '_') = false := by decide
    exact fun name hn => hn.not_mem (hall x hx).1 (hall x hx).2
  rintro ⟨a, n, m, b, -, ht, hn⟩
  rcases List.append_eq_append_iff.1 ht with ⟨v, rfl, hv⟩ | ⟨v, rfl, hv⟩
  · cases v with
    | nil => exact hne (List.cons.inj hv).1
    | cons y v =>
      obtain ⟨rfl, -⟩ := List.cons.inj hv
      exact hname _ hn (by simp)
  · cases v with
    | nil => exact hne (List.cons.inj hv).1.symm
    | cons y v =>
      obtain ⟨rfl, -⟩ := List.cons.inj hv
      simp at hu

/-- The passes go over what stands before two marks, between them and behind them each by
itself. -/
theorem passes_enclosed {opening closing : List Char} (h : Encloses opening closing) (k : Nat)
    (s body t : List Char) :
    passes es k (s ++ (opening ++ (body ++ closing) ++ t)) =
      passes es k s ++ (opening ++ (passes es k body ++ closing) ++ passes es k t) := by
  obtain ⟨⟨o, ho⟩, ⟨u, hu, hsemi⟩, hamp, hamp'⟩ := h
  have hfirst : ∀ j r, ¬ Spans IsEntityName (passes es j s) (passes es j (opening ++ r)) := by
    intro j r
    rw [passes_plain_append hamp, ho]
    exact not_spans_of_barrier (u := []) (by simp) (by simp)
  have hlast : ∀ j, ¬ Spans IsEntityName (passes es j body) (passes es j (closing ++ t)) := by
    intro j
    rw [passes_plain_append hamp', hu, List.append_assoc]
    exact not_spans_of_barrier hsemi (by simp)
  rw [List.append_assoc, List.append_assoc, passes_append fun j _ => hfirst j _,
    passes_plain_append hamp, passes_append fun j _ => hlast j, passes_plain_append hamp']
  simp

theorem references_enclosed {opening closing : List Char} (h : Encloses opening closing)
    (s body t : List Char) :
    references (s ++ (opening ++ (body ++ closing) ++ t)) =
      references s ++ references body ++ references t := by
  obtain ⟨⟨o, ho⟩, ⟨u, hu, hsemi⟩, hamp, hamp'⟩ := h
  have hfirst : ∀ r, ¬ Spans IsEntityName s (opening ++ r) := by
    intro r
    rw [ho]
    exact not_spans_of_barrier (u := []) (by simp) (by simp)
  have hlast : ¬ Spans IsEntityName body (closing ++ t) := by
    rw [hu, List.append_assoc]
    exact not_spans_of_barrier hsemi (by simp)
  rw [List.append_assoc, List.append_assoc, references_append_of_not_spans (hfirst _),
    references_append hamp, references_append_of_not_spans hlast, references_append hamp',
    List.append_assoc]

/-! ### Blocks at a place -/

theorem NoBlock.of_infix (h : NoBlock t) (hs : s <:+: t) : NoBlock s :=
  fun w hw hi => h w hw (hi.trans hs)

theorem IsOpening.eq_lt_of_mem {w : List Char} (h : IsOpening w) {x : Char} (hx : x ∈ w)
    (hm : x ∈ marks) : ∃ ws, w = '<' :: ws ∧ x = '<' ∧ x ∉ ws := by
  obtain ⟨ws, rfl, -⟩ := h.exists_cons
  have hn : x ∉ ws := fun hx => h.not_mem_marks rfl x hx hm
  exact ⟨ws, rfl, (List.mem_cons.1 hx).resolve_right hn, hn⟩

/-- No block opens where two texts meet, if the second begins with `<`. -/
theorem NoBlock.append_lt (hs : NoBlock s) (ht : NoBlock ('<' :: t)) : NoBlock (s ++ '<' :: t) := by
  intro w hw hi
  rcases List.infix_append_iff.1 hi with hi | hi | ⟨u, v, rfl, hu, hv⟩
  · exact hs w hw hi
  · exact ht w hw hi
  · cases v with
    | nil => exact hs _ hw (by simpa using hu.isInfix)
    | cons y v =>
      have ⟨_, hv'⟩ := hv
      obtain ⟨rfl, -⟩ := List.cons.inj hv'
      obtain ⟨ws, hws, -, hn⟩ := hw.eq_lt_of_mem (x := '<') (by simp) (by decide)
      cases u with
      | nil => exact ht _ hw (by simpa using hv.isInfix)
      | cons z u =>
        obtain ⟨-, rfl⟩ := List.cons.inj hws
        simp at hn

/-- No block opens where two texts meet, if the first ends with `>`. -/
theorem NoBlock.append_gt (hs : NoBlock (s ++ ['>'])) (ht : NoBlock t) :
    NoBlock (s ++ ['>'] ++ t) := by
  intro w hw hi
  rcases List.infix_append_iff.1 hi with hi | hi | ⟨u, v, rfl, hu, hv⟩
  · exact hs w hw hi
  · exact ht w hw hi
  · rcases List.eq_nil_or_concat u with rfl | ⟨u, y, rfl⟩
    · exact ht _ hw (by simpa using hv.isInfix)
    · rw [List.concat_eq_append] at hu hw
      obtain ⟨z, hz⟩ := hu
      rw [← List.append_assoc] at hz
      obtain ⟨-, hy⟩ := List.append_inj' hz rfl
      cases hy
      obtain ⟨_, -, hne, -⟩ := hw.eq_lt_of_mem (x := '>') (by simp) (by decide)
      cases hne

/-- A character in front changes nothing about what is found when the text goes on. -/
theorem extend_cons {x y : Option (List Char × List Char)} {c : Char} {b r : List Char}
    (h : x.map (fun (b, r) => (c :: b, r)) = some (b, r))
    (hxy : ∀ {b r}, x = some (b, r) → '>' ∈ s ∧ y = some (b, r ++ t)) :
    '>' ∈ c :: s ∧ y.map (fun (b, r) => (c :: b, r)) = some (b, r ++ t) := by
  obtain ⟨⟨b, r⟩, hx, he⟩ := Option.map_eq_some_iff.1 h
  cases he
  obtain ⟨hgt, rfl⟩ := hxy hx
  exact ⟨List.mem_cons_of_mem _ hgt, rfl⟩

/-- The end of a block stays where it is when the text goes on. -/
theorem blockEnd?_extend {a : Bool} {q : Option Char} {s b r : List Char}
    (h : blockEnd? a q s = some (b, r)) (t : List Char) :
    '>' ∈ s ∧ blockEnd? a q (s ++ t) = some (b, r ++ t) := by
  fun_induction blockEnd? a q s generalizing b r with
  | case1 => cases h
  | case2 a c cs next q =>
    rename_i ih
    obtain ⟨hgt, hext⟩ := extend_cons h (ih _ _)
    refine ⟨hgt, ?_⟩
    rw [List.cons_append, blockEnd?]
    exact hext
  | case3 a c cs next hquote =>
    rename_i ih
    obtain ⟨hgt, hext⟩ := extend_cons h (ih _ _)
    refine ⟨hgt, ?_⟩
    rw [List.cons_append, blockEnd?]
    simpa only [if_pos hquote] using hext
  | case4 a c cs next hquote hopen =>
    rename_i ih
    obtain ⟨hgt, hext⟩ := extend_cons h (ih _ _)
    refine ⟨hgt, ?_⟩
    rw [List.cons_append, blockEnd?]
    simpa only [if_neg hquote, if_pos hopen] using hext
  | case5 a c cs next hquote hopen hclose =>
    rename_i ih
    obtain ⟨hgt, hext⟩ := extend_cons h (ih _ _)
    refine ⟨hgt, ?_⟩
    rw [List.cons_append, blockEnd?]
    simpa only [if_neg hquote, if_neg hopen, if_pos hclose] using hext
  | case6 a c cs hquote hopen hclose hend =>
    cases h
    refine ⟨by simp [hend.1], ?_⟩
    rw [List.cons_append, blockEnd?]
    simp only [if_neg hquote, if_neg hopen, if_neg hclose, if_pos hend]
  | case7 a c cs next hquote hopen hclose hend hnone =>
    rename_i ih
    obtain ⟨hgt, hext⟩ := extend_cons h (ih _ _)
    refine ⟨hgt, ?_⟩
    -- Whether a comment begins is known before the end of the block.
    have hnone' : (if a = true then after? "<!--".toList (c :: (cs ++ t)) else none) = none := by
      split at hnone
      · next ha =>
        have happ := isSome_after?_append (m := "<!--".toList) (by decide) hgt t
        rw [hnone] at happ
        rw [if_pos ha]
        simpa using happ
      · next ha => rw [if_neg ha]
    rw [List.cons_append, blockEnd?]
    simp only [if_neg hquote, if_neg hopen, if_neg hclose, if_neg hend]
    split
    · exact hext
    · next h' => cases hnone'.symm.trans h'
  | case8 a c cs => cases h
  | case9 a c cs hquote hopen hclose hend s hs body rest hcut ih ih' =>
    obtain ⟨⟨b, r⟩, hb, he⟩ := Option.map_eq_some_iff.1 h
    cases he
    obtain ⟨hgt, hext⟩ := ih' hb
    have ha : a = true := by
      by_contra ha
      rw [dif_neg ha] at hs
      cases hs
    rw [dif_pos ha] at hs
    have hopen' : (if a = true then after? "<!--".toList (c :: (cs ++ t)) else none) =
        some (s ++ t) := by
      rw [if_pos ha]
      exact after?_extend hs t
    refine ⟨?_, ?_⟩
    · rw [after?_eq_some_iff.1 hs, eq_of_cut? hcut]
      simp
    · rw [List.cons_append, blockEnd?]
      simp only [if_neg hquote, if_neg hopen, if_neg hclose, if_neg hend]
      split
      · next h' => cases hopen'.symm.trans h'
      · next h' =>
        cases hopen'.symm.trans h'
        split
        · next h'' => cases (cut?_extend hcut t).symm.trans h''
        · next h'' =>
          cases (cut?_extend hcut t).symm.trans h''
          simp [hext]

/-- A document type block and what stands behind it. -/
structure IsBlock (block rest : List Char) : Prop where
  opening : ∃ w r, block = w ++ r ∧ IsOpening w
  ends : blockEnd? false none (block ++ rest) = some (block, rest)

theorem IsBlock.append {block rest : List Char} (h : IsBlock block rest) (t : List Char) :
    IsBlock block (rest ++ t) :=
  ⟨h.opening, by rw [← List.append_assoc]; exact (blockEnd?_extend h.ends t).2⟩

/-- The line breaks of a block, which are all that is kept of it. -/
def breaks (block : List Char) : List Char := List.replicate (block.count '\n') '\n'

/-- A place in a text at which another text may be put as far as document type blocks are concerned:
it is not in the block of the text, and the other text opens none before that. The entities, and
what stands before and behind the place with the block blanked out. -/
inductive Admits (x : List Char) :
    List Entity → List Char → List Char → List Char → List Char → Prop
  | none {pre post : List Char} : NoBlock (pre ++ post) → NoBlock x → Admits x [] pre post pre post
  | before {head block rest post : List Char} : NoBlock head →
    IsBlock block rest →
    Admits x (declarations block) (head ++ (block ++ rest)) post
      (head ++ (breaks block ++ rest)) post
  | behind {pre head block rest : List Char} : NoBlock (pre ++ head) → NoBlock x →
    IsBlock block rest →
    Admits x (declarations block) pre (head ++ (block ++ rest)) pre
      (head ++ (breaks block ++ rest))

namespace Admits

variable {x pre post bpre bpost : List Char}

theorem stripBlock (h : Admits x es pre post bpre bpost) (source : String) :
    stripBlock source (pre ++ post) = .ok (bpre ++ bpost, es) := by
  cases h with
  | none hs _ => exact (Declares.none hs).stripBlock source
  | @before head block rest post hs hb =>
    have := stripBlock_block hs hb.opening (hb.append post).ends source
    simpa [breaks] using this
  | @behind pre head block rest hs _ hb =>
    have := stripBlock_block hs hb.opening hb.ends source
    simpa [breaks] using this

/-- The block is found as without what is put at the place. -/
theorem stripBlock_insert {opening closing body : List Char} (hx : Encloses opening closing)
    (h : Admits (opening ++ (body ++ closing)) es pre post bpre bpost) (source : String) :
    Markup.stripBlock source (pre ++ (opening ++ (body ++ closing) ++ post)) =
      .ok (bpre ++ (opening ++ (body ++ closing) ++ bpost), es) := by
  have hinsert : ∀ {s t : List Char}, NoBlock (s ++ t) → NoBlock (opening ++ (body ++ closing)) →
      NoBlock (s ++ (opening ++ (body ++ closing) ++ t)) := by
    intro s t hst hx'
    obtain ⟨⟨o, rfl⟩, ⟨u, rfl, -⟩, -⟩ := hx
    have ht : NoBlock t := hst.of_infix (List.suffix_append s t).isInfix
    have hs : NoBlock s := hst.of_infix (List.prefix_append s t).isInfix
    have hgt : NoBlock ('<' :: o ++ (body ++ u) ++ ['>'] ++ t) :=
      NoBlock.append_gt (by simpa using hx') ht
    have hlt := hs.append_lt (by simpa using hgt)
    simpa using hlt
  cases h with
  | none hs hx' => exact (Declares.none (hinsert hs hx')).stripBlock source
  | @before head block rest post hs hb =>
    have := stripBlock_block hs hb.opening
      (hb.append (opening ++ (body ++ closing) ++ post)).ends source
    simpa [breaks] using this
  | @behind pre head block rest hs hx' hb =>
    have := stripBlock_block (hinsert hs hx') hb.opening hb.ends source
    simpa [breaks] using this

end Admits

/-! ### Expansion at a place -/

/-- What an expanded text is: the text after all passes, with built-in references only. -/
theorem expand_eq_ok_iff {source : String} {text body out : List Char}
    (hs : stripBlock source text = .ok (body, es)) :
    expand source text = .ok out ↔ out = passes es passLimit body ∧
      ∀ n ∈ references (passes es passLimit body), isBuiltin n = true := by
  rw [expand_eq hs, ← firstReference?_eq_none_iff]
  split
  · next hnone => simp [hnone, eq_comm]
  · next hsome =>
    rw [hsome]
    split <;> simp

section Expansion

variable {source : String} {opening closing pre post bpre bpost body out : List Char}
  (hx : Encloses opening closing)
  (ha : Admits (opening ++ (body ++ closing)) es pre post bpre bpost)

include hx ha

/-- A text with something put in between two marks is expanded part by part. -/
theorem eq_of_expand_insert
    (h : expand source (pre ++ (opening ++ (body ++ closing) ++ post)) = .ok out) :
    out = passes es passLimit bpre ++
      (opening ++ (passes es passLimit body ++ closing) ++ passes es passLimit bpost) := by
  rw [← passes_enclosed hx]
  exact ((expand_eq_ok_iff (ha.stripBlock_insert hx source)).1 h).1

/-- What is put in between two marks is expanded by itself, and the text around it as without it. -/
theorem expand_insert
    (hspans : ∀ k ≤ passLimit, ¬ Spans IsEntityName (passes es k bpre) (passes es k bpost))
    (hbody : ∀ n ∈ references (passes es passLimit body), isBuiltin n = true)
    (h : expand source (pre ++ post) = .ok out) :
    out = passes es passLimit bpre ++ passes es passLimit bpost ∧
      expand source (pre ++ (opening ++ (body ++ closing) ++ post)) =
        .ok (passes es passLimit bpre ++
          (opening ++ (passes es passLimit body ++ closing) ++ passes es passLimit bpost)) := by
  obtain ⟨hout, hrefs⟩ := (expand_eq_ok_iff (ha.stripBlock source)).1 h
  have happ := passes_append fun j hj => hspans j (Nat.le_of_lt hj)
  rw [happ, references_append_of_not_spans (hspans passLimit (Nat.le_refl _)),
    List.forall_mem_append] at hrefs
  refine ⟨hout.trans happ, (expand_eq_ok_iff (ha.stripBlock_insert hx source)).2 ?_⟩
  rw [passes_enclosed hx, references_enclosed hx, List.forall_mem_append, List.forall_mem_append]
  exact ⟨rfl, ⟨hrefs.1, hbody⟩, hrefs.2⟩

end Expansion

end Progression.Markup
