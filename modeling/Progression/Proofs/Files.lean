import Mathlib.Data.List.TakeWhile
import Progression.Files.Tree

/-!
Paths of the same key. They are joined to paths of the same key, their directories have the same
key, and where both of them are files they are the same file (`Tree.read_eq_of_key`).
-/

namespace Progression.Path

open Progression.Text

/-- A part that is not passed over. -/
def IsCounted (s : List Char) : Prop := s ≠ [] ∧ s ≠ ['.']

instance (s : List Char) : Decidable (IsCounted s) := inferInstanceAs (Decidable (_ ∧ _))

/-- The parts of a path that count. -/
def counted (p : List Char) : List (List Char) := (parts p).filter fun s => IsCounted s

theorem key_eq (p : List Char) : key p = (p.take (headLength p), counted (p.drop (headLength p))) :=
  rfl

/-! ### Parts -/

theorem divide_append (x : Char) (s t : List Char) :
    divide x (s ++ x :: t) = divide x s ++ divide x t := by
  induction s with
  | nil => simp [divide]
  | cons c s ih =>
    simp only [List.cons_append, divide, ih]
    split
    · rfl
    · cases h : divide x s with
      | nil =>
        cases s with
        | nil => simp [divide] at h
        | cons d s =>
          simp only [divide] at h
          split at h
          · cases h
          · split at h <;> cases h
      | cons part parts => rfl

theorem divide_of_not_mem {x : Char} {s : List Char} (h : x ∉ s) : divide x s = [s] := by
  induction s with
  | nil => rfl
  | cons c s ih =>
    simp only [List.mem_cons, not_or] at h
    rw [divide, if_neg (Ne.symm h.1), ih h.2]

@[simp] theorem counted_nil : counted [] = [] := by decide

theorem counted_append (s t : List Char) : counted (s ++ '/' :: t) = counted s ++ counted t := by
  rw [counted, parts, divide_append, List.filter_append]
  rfl

@[simp] theorem counted_slash (t : List Char) : counted ('/' :: t) = counted t := by
  simpa using counted_append [] t

theorem counted_of_not_mem {s : List Char} (h : '/' ∉ s) :
    counted s = if IsCounted s then [s] else [] := by
  rw [counted, parts, divide_of_not_mem h]
  split <;> simp_all

theorem headLength_cons (c : Char) (t : List Char) :
    headLength (c :: t) = if c = '/' ∨ c = '.' ∧ t.head?.getD '/' = '/' then 1 else 0 := by
  unfold headLength
  split
  · simp_all
  · simp_all
  · simp_all
  · next hroot hpoint hslash =>
    rw [if_neg]
    rintro (rfl | ⟨rfl, ht⟩)
    · exact hroot _ rfl
    · cases t with
      | nil => exact hpoint rfl
      | cons d t =>
        obtain rfl : d = '/' := ht
        exact hslash _ rfl

/-- The root and a leading point do not count. -/
theorem counted_drop_headLength (p : List Char) : counted (p.drop (headLength p)) = counted p := by
  unfold headLength
  split
  · exact (counted_slash _).symm
  · decide
  · next t => exact (counted_append ['.'] t).symm
  · rfl

theorem key_snd (p : List Char) : (key p).2 = counted p := counted_drop_headLength p

/-- A path is absolute if its head is the root. -/
theorem isAbsolute_iff (p : List Char) : isAbsolute p = true ↔ (key p).1 = ['/'] := by
  cases p with
  | nil => decide
  | cons c t =>
    rw [key_eq, headLength_cons, isAbsolute]
    split
    · simp
    · next h => simp [(not_or.1 h).1]

/-! ### Joined paths -/

theorem headLength_append {b : List Char} (hb : b ≠ []) (r : List Char) :
    headLength (b ++ '/' :: r) = headLength b := by
  cases b with
  | nil => exact absurd rfl hb
  | cons c t => cases t <;> simp only [List.cons_append, headLength_cons] <;> rfl

theorem headLength_le_length (p : List Char) : headLength p ≤ p.length := by
  cases p with
  | nil => simp [headLength]
  | cons c t => rw [headLength_cons]; split <;> simp

theorem key_append {b : List Char} (hb : b ≠ []) (r : List Char) :
    key (b ++ '/' :: r) = ((key b).1, (key b).2 ++ counted r) := by
  refine Prod.ext ?_ ?_
  · simp only [key_eq, headLength_append hb, List.take_append_of_le_length (headLength_le_length b)]
  · simp only [key_snd, counted_append]

/-- Only the empty path has neither a head nor a part that counts. -/
theorem eq_nil_of_key {b : List Char} (h : key b = ([], [])) : b = [] := by
  cases b with
  | nil => rfl
  | cons c t =>
    have hhead : headLength (c :: t) = 0 := by simpa [key_eq] using congrArg Prod.fst h
    have hparts : counted (c :: t) = [] := by simpa only [key_snd] using congrArg Prod.snd h
    rw [headLength_cons] at hhead
    split at hhead
    · cases hhead
    · next hc =>
      rw [not_or, not_and] at hc
      by_cases ht : '/' ∈ t
      · obtain ⟨s, r, rfl, hs⟩ := List.eq_append_cons_of_mem ht
        rw [← List.cons_append, counted_append, counted_of_not_mem (by simp [hs, Ne.symm hc.1]),
          if_pos] at hparts
        · cases hparts
        · cases s <;> simp_all [IsCounted]
      · rw [counted_of_not_mem (by simp [ht, Ne.symm hc.1]), if_pos] at hparts
        · cases hparts
        · cases t <;> simp_all [IsCounted]

theorem key_join {b p : List Char} (hb : b ≠ []) (hp : isAbsolute p = false) :
    key (join b p) = ((key b).1, (key b).2 ++ counted p) := by
  unfold join
  rw [hp, Bool.false_or, if_neg (by simpa using hb)]
  split
  · next hl =>
    obtain ⟨c, rfl⟩ := List.getLast?_eq_some_iff.1 (by simpa using hl)
    rw [List.append_assoc, List.singleton_append]
    by_cases hc : c = []
    · subst hc
      rfl
    · simp only [key_append hc, counted_nil, List.append_nil]
  · exact key_append hb p

theorem key_join_of_key {b b' : List Char} (h : key b = key b') (p : List Char) :
    key (join b p) = key (join b' p) := by
  cases hp : isAbsolute p with
  | true => simp [join, hp]
  | false =>
    by_cases hb : b = []
    · subst hb
      rw [eq_nil_of_key h.symm]
    · have hb' : b' ≠ [] := by
        rintro rfl
        exact hb (eq_nil_of_key h)
      rw [key_join hb hp, key_join hb' hp, h]

/-! ### Directories -/

/-- Paths, from their end, part by part. -/
theorem slashInduction {motive : List Char → Prop} (part : ∀ s, '/' ∉ s → motive s)
    (slash : ∀ s t, '/' ∉ s → motive t → motive (s ++ '/' :: t)) (r : List Char) : motive r := by
  induction hn : r.length using Nat.strongRecOn generalizing r with
  | _ n ih =>
    by_cases hr : '/' ∈ r
    · obtain ⟨s, t, rfl, hs⟩ := List.eq_append_cons_of_mem hr
      refine slash s t hs (ih t.length ?_ t rfl)
      simp only [List.length_append, List.length_cons] at hn
      omega
    · exact part r hr

theorem ne_slash {s : List Char} (hs : '/' ∉ s) : ∀ c ∈ s, decide (c ≠ '/') = true := by
  intro c hc
  rw [decide_eq_true_iff]
  rintro rfl
  exact hs hc

theorem takeWhile_slash {s : List Char} (hs : '/' ∉ s) (t : List Char) :
    (s ++ '/' :: t).takeWhile (· ≠ '/') = s := by
  rw [List.takeWhile_append_of_pos (ne_slash hs)]
  simp

theorem dropPart_of_not_mem {s : List Char} (hs : '/' ∉ s) : dropPart s = [] := by
  rw [dropPart, List.dropWhile_eq_nil_iff.2 (ne_slash hs)]
  rfl

theorem dropPart_append {s : List Char} (hs : '/' ∉ s) (t : List Char) :
    dropPart (s ++ '/' :: t) = t := by
  rw [dropPart, List.dropWhile_append_of_pos (ne_slash hs)]
  simp

theorem isCounted_reverse {s : List Char} : IsCounted s.reverse ↔ IsCounted s := by
  simp [IsCounted, List.reverse_eq_iff]

theorem dropIdle_nil : dropIdle [] = [] := by rw [dropIdle, dif_pos rfl]

theorem dropIdle_of_not_mem {s : List Char} (hs : '/' ∉ s) :
    dropIdle s = if IsCounted s then s else [] := by
  rw [dropIdle]
  split
  · next h => simp [h]
  · dsimp only
    rw [List.takeWhile_eq_self_iff.2 (ne_slash hs), dropPart_of_not_mem hs, dropIdle_nil]
    split <;> simp_all [IsCounted]

theorem dropIdle_append {s : List Char} (hs : '/' ∉ s) (t : List Char) :
    dropIdle (s ++ '/' :: t) = if IsCounted s then s ++ '/' :: t else dropIdle t := by
  rw [dropIdle, dif_neg (by simp)]
  dsimp only
  rw [takeWhile_slash hs, dropPart_append hs]
  split
  · next h =>
    have hs : ¬ IsCounted s := fun hc => h.elim hc.1 hc.2
    rw [if_neg hs]
  · next h =>
    have hs : IsCounted s := not_or.1 h
    rw [if_pos hs]

theorem counted_reverse_of_not_mem {s : List Char} (hs : '/' ∉ s) :
    counted s.reverse = if IsCounted s then [s.reverse] else [] := by
  rw [counted_of_not_mem (by simpa using hs)]
  simp only [isCounted_reverse]

theorem counted_reverse_append (s t : List Char) :
    counted (s ++ '/' :: t).reverse = counted t.reverse ++ counted s.reverse := by
  rw [List.reverse_append, List.reverse_cons, List.append_assoc, List.singleton_append,
    counted_append]

theorem counted_dropIdle (r : List Char) : counted (dropIdle r).reverse = counted r.reverse := by
  induction r using slashInduction with
  | part s hs =>
    rw [dropIdle_of_not_mem hs, counted_reverse_of_not_mem hs]
    split <;> simp_all [counted_reverse_of_not_mem]
  | slash s t hs ih =>
    rw [dropIdle_append hs]
    split
    · rfl
    · next h =>
      rw [ih, counted_reverse_append, counted_reverse_of_not_mem hs, if_neg h, List.append_nil]

/-- The last part that counts is cut off with the part. -/
theorem counted_dropPart {r : List Char} (h : dropIdle r ≠ []) :
    counted (dropPart (dropIdle r)).reverse = (counted r.reverse).dropLast := by
  induction r using slashInduction with
  | part s hs =>
    rw [dropIdle_of_not_mem hs] at h ⊢
    rw [counted_reverse_of_not_mem hs]
    split at h
    · next hc => rw [if_pos hc, if_pos hc, dropPart_of_not_mem hs]; rfl
    · exact absurd rfl h
  | slash s t hs ih =>
    rw [dropIdle_append hs] at h ⊢
    rw [counted_reverse_append, counted_reverse_of_not_mem hs]
    split at h
    · next hc => rw [if_pos hc, if_pos hc, dropPart_append hs, List.dropLast_concat]
    · next hc => rw [if_neg hc, if_neg hc, List.append_nil, ih h]

theorem counted_ne_nil {r : List Char} (h : dropIdle r ≠ []) : counted r.reverse ≠ [] := by
  induction r using slashInduction with
  | part s hs =>
    rw [dropIdle_of_not_mem hs] at h
    rw [counted_reverse_of_not_mem hs]
    split at h
    · next hc => simp [hc]
    · exact absurd rfl h
  | slash s t hs ih =>
    rw [dropIdle_append hs] at h
    rw [counted_reverse_append, counted_reverse_of_not_mem hs]
    split at h
    · next hc => simp [hc]
    · next hc => simpa [hc] using ih h

theorem dropPart_suffix (r : List Char) : dropPart r <:+ r :=
  (List.drop_suffix 1 _).trans (List.dropWhile_suffix _)

theorem dropIdle_suffix (r : List Char) : dropIdle r <:+ r := by
  fun_induction dropIdle r with
  | case1 => exact List.suffix_refl _
  | case2 r _ _ _ ih => exact ih.trans (dropPart_suffix r)
  | case3 => exact List.suffix_refl _

theorem dropIdle_ne_point (r : List Char) : dropIdle r ≠ ['.'] := by
  induction r using slashInduction with
  | part s hs =>
    rw [dropIdle_of_not_mem hs]
    split
    · next hc => exact hc.2
    · simp
  | slash s t hs ih =>
    rw [dropIdle_append hs]
    split
    · cases s <;> simp
    · exact ih

theorem headLength_of_prefix {p q : List Char} (h : q <+: p.drop (headLength p)) (hq : q ≠ ['.']) :
    headLength (p.take (headLength p) ++ q) = headLength p := by
  cases p with
  | nil =>
    obtain rfl : q = [] := by simpa using h
    rfl
  | cons c p =>
    have hc := headLength_cons c p
    split at hc
    · next hhead =>
      rw [hc, List.drop_succ_cons, List.drop_zero] at h
      rw [hc, List.take_succ_cons, List.take_zero, List.singleton_append, headLength_cons, if_pos]
      refine hhead.imp id fun ⟨hpoint, hslash⟩ => ⟨hpoint, ?_⟩
      cases q with
      | nil => rfl
      | cons d q =>
        obtain ⟨r, rfl⟩ := h
        exact hslash
    · next hhead =>
      rw [hc, List.drop_zero] at h
      rw [hc, List.take_zero, List.nil_append]
      cases q with
      | nil => rfl
      | cons d q =>
        obtain ⟨r, hr⟩ := h
        obtain ⟨rfl, rfl⟩ := List.cons.inj hr
        rw [headLength_cons, if_neg]
        refine fun hpart => hhead (hpart.imp id fun ⟨hpoint, hslash⟩ => ⟨hpoint, ?_⟩)
        cases q with
        | nil => exact absurd (hpoint ▸ rfl) hq
        | cons e q => exact hslash

/-- What is cut off a path at its end leaves the head alone. -/
theorem key_of_prefix {p q : List Char} (h : q <+: p.drop (headLength p)) (hq : q ≠ ['.']) :
    key (p.take (headLength p) ++ q) = ((key p).1, counted q) := by
  have hlength : (p.take (headLength p)).length = headLength p := by
    rw [List.length_take, Nat.min_eq_left (headLength_le_length p)]
  rw [key_eq, headLength_of_prefix h hq, List.take_left' hlength, List.drop_left' hlength]
  rfl

theorem key_directory (p : List Char) : key (directory p) =
    if (key p).2 = [] then ([], []) else ((key p).1, (key p).2.dropLast) := by
  have hcounted : counted (p.drop (headLength p)) = (key p).2 := rfl
  unfold directory parent?
  dsimp only
  split
  · next hb =>
    have hnil : (key p).2 = [] := by
      have h := counted_dropIdle (p.drop (headLength p)).reverse
      rw [hb, List.reverse_reverse] at h
      exact h.symm
    rw [if_pos hnil]
    split <;> rfl
  · next hb =>
    have hne := counted_ne_nil hb
    rw [List.reverse_reverse] at hne
    rw [if_neg (show (key p).2 ≠ [] from hne), Option.getD_some, key_of_prefix, counted_dropIdle, counted_dropPart hb,
      List.reverse_reverse]
    · rfl
    · rw [← List.reverse_suffix, List.reverse_reverse]
      exact (dropIdle_suffix _).trans ((dropPart_suffix _).trans (dropIdle_suffix _))
    · rw [Ne, List.reverse_eq_iff]
      exact dropIdle_ne_point _

theorem key_directory_of_key {p p' : List Char} (h : key p = key p') :
    key (directory p) = key (directory p') := by
  rw [key_directory, key_directory, h]

end Progression.Path

namespace Progression.Tree

open Progression.Path

variable {α : Type} {t : Tree α} {data data' : α}

/-! ### Files -/

/-- A file is found without the parts that are passed over, too. -/
theorem locate_counted {l : Location} {ps : List (List Char)} {d : Location}
    (h : t.locate d ps = .ok (.file l data)) :
    t.locate d (ps.filter fun s => IsCounted s) = .ok (.file l data) := by
  induction ps generalizing d with
  | nil => cases h
  | cons p ps ih =>
    unfold locate at h
    dsimp only at h
    split at h
    · next hidle =>
      have hp : ¬ IsCounted p := fun hp => hidle.elim hp.1 hp.2
      rw [List.filter_cons_of_neg (by simpa using hp)]
      exact ih h
    · next hidle =>
      have hp : IsCounted p := not_or.1 hidle
      rw [List.filter_cons_of_pos (by simpa using hp), locate]
      simp only [if_neg hidle]
      split at h
      · next hup => rw [if_pos hup, ih h]
      · next hup =>
        rw [if_neg hup]
        split at h
        · cases h
        · next hlong =>
          rw [if_neg hlong]
          split at h
          · next hfolder => rw [if_pos hfolder, ih h]
          · next hfolder =>
            rw [if_neg hfolder]
            split at h
            · split at h
              · next hlast =>
                obtain rfl : ps = [] := by simpa using hlast
                exact h
              · cases h
            · split at h <;> cases h

theorem locate_of_read {p : List Char} (h : t.read p = .ok data) :
    ∃ l, t.locate (t.origin p) (key p).2 = .ok (.file l data) := by
  unfold read at h
  split at h
  · next l _ hplace =>
    cases h
    unfold place at hplace
    split at hplace
    · cases hplace
    · split at hplace
      · cases hplace
      · exact ⟨l, by rw [key_snd, counted, locate_counted hplace]⟩
  · cases h
  · cases h
  · cases h

theorem origin_eq_of_key {p p' : List Char} (h : key p = key p') : t.origin p = t.origin p' := by
  have habsolute : isAbsolute p = isAbsolute p' := by
    rw [Bool.eq_iff_iff, isAbsolute_iff, isAbsolute_iff, h]
  rw [origin, origin, habsolute]

/-- Two paths of the same key do not lead to different files. -/
theorem read_eq_of_key {p p' : List Char} (h : key p = key p') (hp : t.read p = .ok data)
    (hp' : t.read p' = .ok data') : data = data' := by
  obtain ⟨l, hl⟩ := locate_of_read hp
  obtain ⟨l', hl'⟩ := locate_of_read hp'
  rw [origin_eq_of_key h, h, hl'] at hl
  cases hl
  rfl

end Progression.Tree
