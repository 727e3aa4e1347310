import Mathlib.Data.List.Infix
import Mathlib.Data.List.Nodup
import Mathlib.Data.List.Perm.Subperm
import Progression.Proofs.Files
import Progression.Proofs.Json.Numbers

/-!
Writes that happen as a whole or not at all. Whatever the disk refuses and wherever a path leads, a
write that fails leaves the files as they are, its temporary file included, and at most some more
directories with nothing in them; and one that succeeds puts its data at the place that its path
names. Over any sequence of writes, the files are those from before with what the successful writes
stored, one after the other (`writes_are_all_or_nothing`).
-/

namespace Progression

open Progression.Text

/-! ### The places that paths name -/

/-- The place that the parts of a path name, seen from a directory. A double point leads out of
it. -/
def Location.along (d : Location) : List (List Char) → Location
  | [] => d
  | p :: ps =>
    if p = [] ∨ p = ['.'] then along d ps
    else if p = ['.', '.'] then along d.dropLast ps
    else along (d ++ [String.ofList p]) ps

/-- The place that a path names, seen from the working directory: a path that begins with a slash
leads there from the root. -/
def Path.location (start : Location) (p : List Char) : Location :=
  if p.head? = some '/' then Location.along [] (Path.parts p)
  else Location.along start (Path.parts p)

/-- Where something stands. -/
def Place.location {α : Type} : Place α → Location
  | .folder l | .file l _ | .missing l => l

theorem Location.along_of_empty {ps : List (List Char)} (h : ps.all (·.isEmpty)) (d : Location) :
    d.along ps = d := by
  induction ps with
  | nil => rfl
  | cons p ps ih =>
    rw [List.all_cons, Bool.and_eq_true, List.isEmpty_iff] at h
    rw [along, if_pos (.inl h.1), ih h.2]

theorem Path.parts_ne_nil (p : List Char) : Path.parts p ≠ [] := by
  cases p with
  | nil => simp [parts, divide]
  | cons c p =>
    rw [parts, divide]
    split
    · simp
    · split <;> simp

/-- The last part of a path is empty if the path is, or ends with a slash. -/
theorem Path.eq_nil_or_slash {p : List Char} (h : (Path.parts p).getLast? = some []) :
    p = [] ∨ p.getLast? = some '/' := by
  induction p using Path.slashInduction with
  | part s hs =>
    rw [Path.parts, Path.divide_of_not_mem hs] at h
    exact .inl (Option.some.inj h)
  | slash s r hs ih =>
    rw [Path.parts, Path.divide_append, ← Path.parts, ← Path.parts,
      List.getLast?_append_of_ne_nil _ (parts_ne_nil r)] at h
    rcases ih h with rfl | hr
    · simp
    · cases r with
      | nil => cases hr
      | cons c r => simpa using hr

/-! ### Trees in which everything stands in a directory -/

namespace Tree

variable {α : Type} {t t' : Tree α} {d l : Location} {p : List Char} {ps : List (List Char)}
  {x : Place α} {data : α} {name : String} {disk : Disk α} {e : FileFault}

/-- What stands somewhere stands in a directory, and is no directory and file at once. -/
structure IsSound (t : Tree α) : Prop where
  above : ∀ l name, t.isTaken (l ++ [name]) → t.isFolder l
  apart : ∀ l, t.isFolder l → t.files.lookup l = none

/-- The tree has grown by directories only, at places where nothing stood. -/
structure Grows (t t' : Tree α) : Prop where
  start : t'.start = t.start
  files : t'.files = t.files
  folders : t.folders <:+ t'.folders
  fresh : ∀ l ∈ t'.folders, l ∉ t.folders → t.isTaken l = false
  sound : t.IsSound → t'.IsSound

theorem Grows.refl (t : Tree α) : Grows t t :=
  ⟨rfl, rfl, List.suffix_rfl, fun _ h hn => absurd h hn, id⟩

theorem isFolder_iff : t.isFolder l ↔ l <+: t.start ∨ l ∈ t.folders := by
  simp [isFolder]

theorem isTaken_iff : t.isTaken l ↔ t.isFolder l ∨ (t.files.lookup l).isSome := by
  simp [isTaken]

theorem isTaken_eq_false_iff :
    t.isTaken l = false ↔ t.isFolder l = false ∧ t.files.lookup l = none := by
  simp [isTaken]

theorem Grows.trans {t₁ t₂ t₃ : Tree α} (h : Grows t₁ t₂) (h' : Grows t₂ t₃) : Grows t₁ t₃ := by
  refine ⟨h'.start.trans h.start, h'.files.trans h.files, h.folders.trans h'.folders, ?_,
    fun hs => h'.sound (h.sound hs)⟩
  intro l hl hn
  by_cases hmid : l ∈ t₂.folders
  · exact h.fresh l hmid hn
  · have hfree := isTaken_eq_false_iff.1 (h'.fresh l hl hmid)
    rw [h.files] at hfree
    refine isTaken_eq_false_iff.2 ⟨?_, hfree.2⟩
    rw [← Bool.not_eq_true] at hfree ⊢
    intro hf
    refine hfree.1 (isFolder_iff.2 ((isFolder_iff.1 hf).imp ?_ fun hl => h.folders.subset hl))
    rw [h.start]
    exact id

/-- Everything above a place where something stands is a directory. -/
theorem IsSound.isFolder_of_prefix (hs : t.IsSound) {r : Location} (h : t.isTaken (l ++ r))
    (hr : r ≠ []) : t.isFolder l := by
  induction r using List.reverseRecOn with
  | nil => exact absurd rfl hr
  | append_singleton r name ih =>
    have hfolder := hs.above (l ++ r) name (by rwa [← List.append_assoc] at h)
    by_cases hr' : r = []
    · rwa [hr', List.append_nil] at hfolder
    · exact ih (isTaken_iff.2 (.inl hfolder)) hr'

theorem isFolder_root (t : Tree α) : t.isFolder [] := isFolder_iff.2 (.inl List.nil_prefix)

theorem isFolder_start (t : Tree α) : t.isFolder t.start := isFolder_iff.2 (.inl List.prefix_rfl)

theorem isFolder_origin (t : Tree α) (p : List Char) : t.isFolder (t.origin p) := by
  unfold origin
  split
  · exact t.isFolder_root
  · exact t.isFolder_start

theorem IsSound.isFolder_dropLast (hs : t.IsSound) (hd : t.isFolder d) :
    t.isFolder d.dropLast := by
  by_cases hne : d = []
  · subst hne
    exact hd
  · refine hs.above d.dropLast (d.getLast hne) ?_
    rw [List.dropLast_append_getLast]
    exact isTaken_iff.2 (.inl hd)

/-- Nothing stands in directories that are new. -/
theorem Grows.empty (h : Grows t t') (hs : t.IsSound) (hl : l ∈ t'.folders) (hn : l ∉ t.folders)
    {f : Location × α} (hf : f ∈ t.files) : ¬ l <+: f.1 := by
  rintro ⟨r, hr⟩
  obtain ⟨hfolder, hfile⟩ := isTaken_eq_false_iff.1 (h.fresh l hl hn)
  rw [List.lookup_eq_none_iff] at hfile
  by_cases hnil : r = []
  · have hne := hfile f hf
    rw [← hr, hnil, List.append_nil] at hne
    simp at hne
  · have htaken : t.isTaken (l ++ r) := by
      refine isTaken_iff.2 (.inr ?_)
      rw [hr, List.lookup_isSome_iff]
      exact ⟨f, hf, by simp⟩
    rw [hs.isFolder_of_prefix htaken hnil] at hfolder
    cases hfolder

/-! ### Walks along a path -/

/-- A part of a path that is a name of something. -/
structure IsName (p : List Char) : Prop where
  counted : ¬(p = [] ∨ p = ['.'])
  inside : p ≠ ['.', '.']
  short : ¬longestPart < (String.ofList p).utf8ByteSize

/-- From a directory, the parts of a path lead to what stands there. -/
inductive Walks (t : Tree α) : Location → List (List Char) → Place α → Prop
  | here {d : Location} : Walks t d [] (.folder d)
  | idle {d : Location} {p : List Char} {ps : List (List Char)} {x : Place α} :
    p = [] ∨ p = ['.'] → Walks t d ps x → Walks t d (p :: ps) x
  | out {d : Location} {ps : List (List Char)} {x : Place α} :
    Walks t d.dropLast ps x → Walks t d (['.', '.'] :: ps) x
  | into {d : Location} {p : List Char} {ps : List (List Char)} {x : Place α} :
    IsName p → t.isFolder (d ++ [String.ofList p]) → Walks t (d ++ [String.ofList p]) ps x →
    Walks t d (p :: ps) x
  | file {d : Location} {p : List Char} {data : α} :
    IsName p → t.isFolder (d ++ [String.ofList p]) = false →
    t.files.lookup (d ++ [String.ofList p]) = some data →
    Walks t d [p] (.file (d ++ [String.ofList p]) data)
  | missing {d : Location} {p : List Char} {ps : List (List Char)} :
    IsName p → t.isTaken (d ++ [String.ofList p]) = false → ps.all (·.isEmpty) →
    Walks t d (p :: ps) (.missing (d ++ [String.ofList p]))

theorem walks_of_locate (h : t.locate d ps = .ok x) : Walks t d ps x := by
  induction ps generalizing d with
  | nil =>
    cases h
    exact .here
  | cons p ps ih =>
    unfold locate at h
    dsimp only at h
    split at h
    · next hidle => exact .idle hidle (ih h)
    next hcounted =>
    split at h
    · next hup =>
      subst hup
      exact .out (ih h)
    next hinside =>
    split at h
    · cases h
    next hshort =>
    have hname : IsName p := ⟨hcounted, hinside, hshort⟩
    split at h
    · next hfolder => exact .into hname hfolder (ih h)
    next hfolder =>
    rw [Bool.not_eq_true] at hfolder
    split at h <;> split at h
    case h_1.isTrue data hfile hlast =>
      cases h
      obtain rfl := List.isEmpty_iff.1 hlast
      exact .file hname hfolder hfile
    case h_2.isTrue hfile hlast =>
      cases h
      exact .missing hname (isTaken_eq_false_iff.2 ⟨hfolder, hfile⟩) hlast
    all_goals cases h

theorem Walks.locate (h : Walks t d ps x) : t.locate d ps = .ok x := by
  induction h with
  | here => rfl
  | idle hidle _ ih => rw [Tree.locate, if_pos hidle, ih]
  | out _ ih => rw [Tree.locate, if_neg (by decide), if_pos rfl, ih]
  | into hname hfolder _ ih =>
    rw [Tree.locate, if_neg hname.counted, if_neg hname.inside]
    rw [if_neg hname.short, if_pos hfolder, ih]
  | file hname hfolder hfile =>
    rw [Tree.locate, if_neg hname.counted, if_neg hname.inside]
    rw [if_neg hname.short, hfolder, hfile]
    rfl
  | missing hname hfree hlast =>
    obtain ⟨hfolder, hfile⟩ := isTaken_eq_false_iff.1 hfree
    rw [Tree.locate, if_neg hname.counted, if_neg hname.inside]
    rw [if_neg hname.short, hfolder, hfile, hlast]
    rfl

theorem locate_eq_ok_iff : t.locate d ps = .ok x ↔ Walks t d ps x :=
  ⟨walks_of_locate, Walks.locate⟩

theorem Walks.location (h : Walks t d ps x) : x.location = d.along ps := by
  induction h with
  | here => rfl
  | idle hidle _ ih => rw [Location.along, if_pos hidle, ih]
  | out _ ih => rw [Location.along, if_neg (by decide), if_pos rfl, ih]
  | into hname _ _ ih => rw [Location.along, if_neg hname.counted, if_neg hname.inside, ih]
  | file hname =>
    rw [Location.along, if_neg hname.counted, if_neg hname.inside]
    rfl
  | missing hname _ hlast =>
    rw [Location.along, if_neg hname.counted, if_neg hname.inside, Location.along_of_empty hlast]
    rfl

/-- In a sound tree, whatever a walk leads to stands in a directory. -/
theorem Walks.parent (hs : t.IsSound) (h : Walks t d ps x) (hd : t.isFolder d)
    (hx : x.location = l ++ [name]) : t.isFolder l := by
  induction h with
  | here =>
    subst hx
    exact hs.above l name (isTaken_iff.2 (.inl hd))
  | idle _ _ ih => exact ih hd hx
  | out _ ih => exact ih (hs.isFolder_dropLast hd) hx
  | into _ hfolder _ ih => exact ih hfolder hx
  | file _ _ hfile =>
    refine hs.above l name (hx ▸ isTaken_iff.2 (.inr ?_))
    rw [Place.location, hfile]
    rfl
  | missing =>
    obtain ⟨rfl, -⟩ := List.append_inj' hx rfl
    exact hd

theorem Walks.isFolder (hs : t.IsSound) (h : Walks t d ps (.folder l)) (hd : t.isFolder d) :
    t.isFolder l := by
  generalize hx : Place.folder l = x at h
  induction h with
  | here =>
    cases hx
    exact hd
  | idle _ _ ih => exact ih hd hx
  | out _ ih => exact ih (hs.isFolder_dropLast hd) hx
  | into _ hfolder _ ih => exact ih hfolder hx
  | file => cases hx
  | missing => cases hx

/-- Something whose place a file can take: a file, or nothing so far. -/
inductive FitsFile (l : Location) : Place α → Prop
  | file (data : α) : FitsFile l (.file l data)
  | missing : FitsFile l (.missing l)

theorem FitsFile.location (h : FitsFile l x) : x.location = l := by cases h <;> rfl

theorem Walks.isFolder_eq_false (h : Walks t d ps x) (hx : FitsFile l x) :
    t.isFolder l = false := by
  induction h with
  | here => cases hx
  | idle _ _ ih => exact ih hx
  | out _ ih => exact ih hx
  | into _ _ _ ih => exact ih hx
  | file _ hfolder =>
    cases hx
    exact hfolder
  | missing _ hfree =>
    cases hx
    exact (isTaken_eq_false_iff.1 hfree).1

theorem getLast?_tail_ne (h : (p :: ps).getLast? ≠ some []) : ps.getLast? ≠ some [] := by
  cases ps with
  | nil => simp
  | cons q qs => rwa [List.getLast?_cons_cons] at h

theorem isFolder_congr (hstart : t'.start = t.start) (hfolders : t'.folders = t.folders)
    (l : Location) : t'.isFolder l = t.isFolder l := by
  rw [Tree.isFolder, Tree.isFolder, hstart, hfolders]

/-- A walk along a path that does not end with a slash leads to the file at its end, once there is
one. -/
theorem Walks.of_lookup (h : Walks t d ps x) (hx : FitsFile l x) (hstart : t'.start = t.start)
    (hfolders : t'.folders = t.folders) (hfile : t'.files.lookup l = some data)
    (hps : ps.getLast? ≠ some []) : Walks t' d ps (.file l data) := by
  induction h with
  | here => cases hx
  | idle hidle _ ih => exact .idle hidle (ih hx (getLast?_tail_ne hps))
  | out _ ih => exact .out (ih hx (getLast?_tail_ne hps))
  | into hname hfolder _ ih =>
    refine .into hname ?_ (ih hx (getLast?_tail_ne hps))
    rwa [isFolder_congr hstart hfolders]
  | file hname hfolder =>
    cases hx
    refine .file hname ?_ hfile
    rwa [isFolder_congr hstart hfolders]
  | @missing d p ps hname hfree hlast =>
    cases hx
    cases ps with
    | nil =>
      refine .file hname ?_ hfile
      rw [isFolder_congr hstart hfolders]
      exact (isTaken_eq_false_iff.1 hfree).1
    | cons q qs =>
      have hmem := List.getLast_mem (l := q :: qs) (by simp)
      have hempty := List.isEmpty_iff.1 (List.all_eq_true.1 hlast _ hmem)
      refine absurd ?_ (getLast?_tail_ne hps)
      rw [List.getLast?_eq_some_getLast (by simp), hempty]

/-! ### Files that are stored -/

theorem lookup_filter_ne {files : List (Location × α)} {l' : Location} (h : l' ≠ l) :
    (files.filter (·.1 ≠ l)).lookup l' = files.lookup l' := by
  induction files with
  | nil => rfl
  | cons f files ih =>
    obtain ⟨k, data⟩ := f
    by_cases hk : k = l
    · subst hk
      have hne : (l' == k) = false := by simpa using h
      rw [List.filter_cons_of_neg (by simp), ih, List.lookup_cons, hne]
    · rw [List.filter_cons_of_pos (by simpa using hk), List.lookup_cons, List.lookup_cons, ih]

theorem lookup_store (l : Location) (data : α) (files : List (Location × α))
    (l' : Location) :
    (store l data files).lookup l' = if l' = l then some data else files.lookup l' := by
  rw [store, List.lookup_cons]
  split
  · next h => rw [if_pos (by simpa using h)]
  · next h =>
    have hne : l' ≠ l := by simpa using h
    rw [if_neg hne, lookup_filter_ne hne]

theorem filter_of_lookup {files : List (Location × α)} (h : files.lookup l = none) :
    files.filter (·.1 ≠ l) = files := by
  refine List.filter_eq_self.2 fun f hf => ?_
  have hne : l ≠ f.1 := by simpa using List.lookup_eq_none_iff.1 h f hf
  exact decide_eq_true hne.symm

theorem put_put (t : Tree α) (l : Location) (data data' : α) :
    (t.put l data).put l data' = t.put l data' := by
  have hfilter : (store l data t.files).filter (·.1 ≠ l) = t.files.filter (·.1 ≠ l) := by
    rw [store, List.filter_cons_of_neg (by simp), List.filter_filter]
    simp
  rw [put, put, put, store, hfilter, ← store]

theorem remove_put (h : t.files.lookup l = none) : (t.put l data).remove l = t := by
  have hfilter : (store l data t.files).filter (·.1 ≠ l) = t.files := by
    rw [store, List.filter_cons_of_neg (by simp), filter_of_lookup h, filter_of_lookup h]
  rw [put, remove, hfilter]

theorem isTaken_put (t : Tree α) (l : Location) (data : α) (l' : Location) :
    (t.put l data).isTaken l' ↔ l' = l ∨ t.isTaken l' := by
  rw [isTaken_iff, isTaken_iff, put, lookup_store]
  split <;> simp_all [isFolder]

theorem IsSound.put (hs : t.IsSound) (hfree : t.isFolder l = false)
    (hparent : ∀ d name, l = d ++ [name] → t.isFolder d) (data : α) :
    (t.put l data).IsSound where
  above d name h := by
    rcases (isTaken_put t l data _).1 h with h | h
    · exact hparent d name h.symm
    · exact hs.above d name h
  apart d h := by
    have hne : d ≠ l := by
      rintro rfl
      rw [show t.isFolder d = true from h] at hfree
      cases hfree
    rw [Tree.put, lookup_store, if_neg hne]
    exact hs.apart d h

/-! ### Directories that are made -/

theorem place_eq_ok_iff :
    t.place p = .ok x ↔ '\x00' ∉ p ∧ p ≠ [] ∧ Walks t (t.origin p) (Path.parts p) x := by
  rw [place, ← locate_eq_ok_iff]
  split
  · next h => simp_all
  · split
    · next h => simp_all
    · simp_all

/-- A path names the place that its parts name from where it begins. -/
theorem along_origin (t : Tree α) (p : List Char) :
    (t.origin p).along (Path.parts p) = Path.location t.start p := by
  unfold origin Path.location Path.isAbsolute
  by_cases hp : p.head? = some '/'
  · rw [if_pos hp, if_pos (by simpa using hp)]
  · rw [if_neg hp, if_neg (by simpa using hp)]

theorem Walks.isTaken_eq_false (h : Walks t d ps (.missing l)) : t.isTaken l = false := by
  generalize hx : Place.missing l = x at h
  induction h with
  | here => cases hx
  | idle _ _ ih => exact ih hx
  | out _ ih => exact ih hx
  | into _ _ _ ih => exact ih hx
  | file => cases hx
  | missing _ hfree =>
    cases hx
    exact hfree

theorem isFolder_cons (t : Tree α) (l l' : Location) :
    Tree.isFolder { t with folders := l :: t.folders } l' ↔ l' = l ∨ t.isFolder l' := by
  simp only [isFolder_iff, List.mem_cons]
  tauto

theorem grows_of_missing (h : Walks t d ps (.missing l)) (hd : t.isFolder d) :
    Grows t { t with folders := l :: t.folders } where
  start := rfl
  files := rfl
  folders := List.suffix_cons l t.folders
  fresh l' hl' hn := by
    obtain rfl := (List.mem_cons.1 hl').resolve_right hn
    exact h.isTaken_eq_false
  sound hs := by
    obtain ⟨hfolder, hfile⟩ := isTaken_eq_false_iff.1 h.isTaken_eq_false
    refine ⟨fun k name htaken => (isFolder_cons t l k).2 (.inr ?_), fun k hk => ?_⟩
    · rcases isTaken_iff.1 htaken with hk | hk
      · rcases (isFolder_cons t l _).1 hk with hk | hk
        · exact h.parent hs hd hk.symm
        · exact hs.above k name (isTaken_iff.2 (.inl hk))
      · exact hs.above k name (isTaken_iff.2 (.inr hk))
    · rcases (isFolder_cons t l k).1 hk with rfl | hk
      · exact hfile
      · exact hs.apart k hk

theorem grows_of_makeFolder (h : t.makeFolder disk p = .ok t') : Grows t t' := by
  unfold makeFolder at h
  split at h
  · next l hplace =>
    split at h
    · cases h
    cases h
    exact grows_of_missing (place_eq_ok_iff.1 hplace).2.2 (t.isFolder_origin p)
  · cases h
  · cases h

theorem grows_makeFolders (t : Tree α) (disk : Disk α) (p : List Char) :
    Grows t (t.makeFolders disk p).1 := by
  induction hn : p.length using Nat.strongRecOn generalizing p with
  | _ n ih =>
    unfold makeFolders
    split
    · exact .refl t
    split
    · next hmade => exact grows_of_makeFolder hmade
    · split
      · exact .refl t
      next q hparent =>
      have hq := ih q.length (hn ▸ Path.length_of_parent? hparent) q rfl
      split
      · next t₁ e hmade => rwa [hmade] at hq
      next t₁ hmade =>
      rw [hmade] at hq
      split
      · next hmade => exact hq.trans (grows_of_makeFolder hmade)
      · exact hq
    · exact .refl t

/-! ### One write -/

/-- Of the candidates for a name, one is free: they are more than the places that are taken. -/
theorem isTaken_freeName (t : Tree α) (l : Location) :
    t.isTaken (l ++ [t.freeName l]) = false := by
  unfold freeName
  dsimp only
  generalize hnames : (List.range (t.files.length + t.folders.length + t.start.length + 1)).map
    (fun i => ".tmp" ++ Number.text i) = names
  cases hfind : names.find? fun name => !t.isTaken (l ++ [name]) with
  | some name => simpa using List.find?_some hfind
  | none =>
    have htaken : names.map (l ++ [·]) ⊆
        t.folders ++ t.files.map Prod.fst ++ t.start.inits.tail := by
      intro k hk
      obtain ⟨name, hname, rfl⟩ := List.mem_map.1 hk
      have h := List.find?_eq_none.1 hfind name hname
      rw [Bool.not_eq_true, Bool.not_eq_false'] at h
      rcases isTaken_iff.1 h with h | h
      · rcases isFolder_iff.1 h with h | h
        · refine List.mem_append_right _ ?_
          cases hstart : t.start with
          | nil => simp [hstart] at h
          | cons a as =>
            rw [hstart, ← List.mem_inits, List.inits_cons] at h
            simpa using h
        · exact List.mem_append_left _ (List.mem_append_left _ h)
      · obtain ⟨f, hf, heq⟩ := List.lookup_isSome_iff.1 h
        refine List.mem_append_left _ (List.mem_append_right _ ?_)
        exact List.mem_map.2 ⟨f, hf, (beq_iff_eq.1 heq).symm⟩
    have hnodup : (names.map (l ++ [·])).Nodup := by
      rw [← hnames, List.map_map]
      refine List.Nodup.map (fun i j hij => ?_) List.nodup_range
      have htext : Number.text i = Number.text j := by simpa using hij
      have hdigits := congrArg (fun s => Number.digits? 10 s.toList) htext
      simpa [Number.text, Number.digits?_decimal] using hdigits
    have hlength := (hnodup.subperm htaken).length_le
    rw [← hnames] at hlength
    simp only [List.length_map, List.length_range, List.length_append, List.length_tail,
      List.length_inits] at hlength
    omega

theorem createDraft_eq_ok [Inhabited α] {draft : Location}
    (h : t.createDraft disk p = .ok (t', draft)) :
    t' = t.put draft default ∧ t.isTaken draft = false ∧
      (t.IsSound → ∀ d name, draft = d ++ [name] → t.isFolder d) := by
  unfold createDraft at h
  split at h
  · next l hplace =>
    dsimp only at h
    split at h
    · cases h
    split at h
    · cases h
    next hfree =>
    cases h
    refine ⟨rfl, by simpa using hfree, fun hs d name hdraft => ?_⟩
    obtain ⟨rfl, -⟩ := List.append_inj' hdraft rfl
    exact (place_eq_ok_iff.1 hplace).2.2.isFolder hs (t.isFolder_origin p)
  · cases h
  · cases h
  · cases h

theorem target_eq_ok (h : t.target p = .ok l) :
    ∃ x, t.place p = .ok x ∧ FitsFile l x ∧ (Path.parts p).getLast? ≠ some [] := by
  unfold target at h
  split at h
  · cases h
  · cases h
  · split at h
    · cases h
    next x hplace =>
    split at h
    · cases h
    next hslash =>
    refine ⟨x, hplace, ?_, fun hlast => ?_⟩
    · split at h
      · cases h
      · cases h
        exact .file _
      · cases h
        exact .missing
    · exact (Path.eq_nil_or_slash hlast).elim (place_eq_ok_iff.1 hplace).2.1 hslash

/-- What a write leaves: directories that it needs, if it fails, and beyond them its data in the
place that its path names, if it succeeds. -/
inductive Wrote (t : Tree α) (p : List Char) (data : α) : Tree α × Except FileFault Unit → Prop
  | refused {t' : Tree α} {e : FileFault} : Grows t t' → Wrote t p data (t', .error e)
  | stored {t' : Tree α} : Grows t t' →
    (t'.IsSound → (t'.put (Path.location t.start p) data).IsSound) →
    (t'.put (Path.location t.start p) data).read p = .ok data →
    Wrote t p data (t'.put (Path.location t.start p) data, .ok ())

theorem Wrote.read {r : Tree α × Except FileFault Unit} (h : Wrote t p data r) (hok : r.2 = .ok ()) :
    r.1.read p = .ok data := by
  cases h with
  | refused => cases hok
  | stored _ _ hread => exact hread

/-- Beside a temporary file, the data are stored where the path leads. -/
theorem wrote_put {draft : Location} (hgrows : Grows t t') (hfree : t'.isTaken draft = false)
    (hparent : t'.IsSound → ∀ d name, draft = d ++ [name] → t'.isFolder d)
    (h : (t'.put draft data).target p = .ok l) : Wrote t p data (t'.put l data, .ok ()) := by
  obtain ⟨x, hplace, hx, hlast⟩ := target_eq_ok h
  obtain ⟨hzero, hne, hwalk⟩ := place_eq_ok_iff.1 hplace
  have hl : l = Path.location t.start p := by
    rw [← hx.location, hwalk.location, along_origin, ← hgrows.start]
    rfl
  subst hl
  refine .stored hgrows (fun hs => ?_) ?_
  · have hdraft := hs.put (isTaken_eq_false_iff.1 hfree).1 (hparent hs) data
    refine hs.put (hwalk.isFolder_eq_false hx) (fun d name hl => ?_) data
    have hd := hwalk.parent hdraft (isFolder_origin _ p) (hx.location.trans hl)
    exact hd
  · have hfile : (t'.put (Path.location t.start p) data).files.lookup (Path.location t.start p) =
        some data := by
      rw [put, lookup_store, if_pos rfl]
    have hread : (t'.put (Path.location t.start p) data).place p =
        .ok (.file (Path.location t.start p) data) :=
      place_eq_ok_iff.2 ⟨hzero, hne, hwalk.of_lookup hx rfl rfl hfile hlast⟩
    rw [read, hread]

theorem wrote_publish [Inhabited α] {draft : Location} (hgrows : Grows t t') (hfree : t'.isTaken draft = false)
    (hparent : t'.IsSound → ∀ d name, draft = d ++ [name] → t'.isFolder d) :
    Wrote t p data (match (t'.put draft default).publish disk draft p data with
      | (t, .error e) => (t.remove draft, .error e)
      | (t, .ok ()) => (t, .ok ())) := by
  have hremove (s : α) : (t'.put draft s).remove draft = t' :=
    remove_put (isTaken_eq_false_iff.1 hfree).2
  have refused (s : α) (e : FileFault) :
      Wrote t p data ((t'.put draft s).remove draft, .error e) := by
    rw [hremove]
    exact .refused hgrows
  have hfile : (t'.put draft data).files.lookup draft = some data := by
    rw [put, lookup_store, if_pos rfl]
  unfold publish
  rw [put_put]
  cases disk.refuses .fillDraft with
  | some e => exact refused default e
  | none =>
    cases disk.refuses .syncDraft with
    | some e => exact refused data e
    | none =>
      cases disk.refuses .rename with
      | some e => exact refused data e
      | none =>
        dsimp only
        unfold Tree.rename
        rw [hfile]
        cases htarget : (t'.put draft data).target p with
        | error e => exact refused data e
        | ok l =>
          dsimp only
          rw [hremove data]
          exact wrote_put hgrows hfree hparent htarget

/-- What one write leaves, whatever the disk refuses. -/
theorem wrote_writeOn [Inhabited α] (t : Tree α) (disk : Disk α) (p : List Char) (data : α) :
    Wrote t p data (t.writeOn disk p data) := by
  have hgrows := grows_makeFolders t disk (Path.folder p)
  unfold writeOn
  split
  · next t₁ e hmade =>
    rw [hmade] at hgrows
    exact .refused hgrows
  next t₁ hmade =>
  rw [hmade] at hgrows
  split
  · exact .refused hgrows
  next t₂ draft hdraft =>
  obtain ⟨rfl, hfree, hparent⟩ := createDraft_eq_ok hdraft
  exact wrote_publish hgrows hfree hparent

/-- What a failed write leaves: the files as they are, and the directories with new ones, in which
nothing stands. -/
structure Spares (t t' : Tree α) : Prop where
  start : t'.start = t.start
  files : t'.files = t.files
  folders : t.folders <:+ t'.folders
  empty : t.IsSound → ∀ l ∈ t'.folders, l ∉ t.folders → ∀ f ∈ t'.files, ¬ l <+: f.1

theorem Grows.spares (h : Grows t t') : Spares t t' where
  start := h.start
  files := h.files
  folders := h.folders
  empty hs _ hl hn _ hf := h.empty hs hl hn (h.files ▸ hf)

/-! ### Sequences of writes -/

end Tree

/-- A call of a write: the disk as it is then, the path and the data. -/
structure Write (α : Type) where
  disk : Disk α := {}
  path : List Char
  data : α

namespace Tree

variable {α : Type} [Inhabited α] {t t' : Tree α}

def carryOut (t : Tree α) (w : Write α) : Tree α × Except FileFault Unit :=
  t.writeOn w.disk w.path w.data

/-- The tree after some writes. -/
def afterAll (t : Tree α) (ws : List (Write α)) : Tree α := ws.foldl (fun t w => (t.carryOut w).1) t

/-- The writes that succeed, of some that are carried out one after the other. -/
def accepted (t : Tree α) : List (Write α) → List (Write α)
  | [] => []
  | w :: ws =>
    match t.carryOut w with
    | (t, .ok ()) => w :: accepted t ws
    | (t, .error _) => accepted t ws

/-- The files with what a write stores, seen from the working directory. -/
def storedBy (start : Location) (files : List (Location × α)) (w : Write α) :
    List (Location × α) :=
  store (Path.location start w.path) w.data files

theorem afterAll_eq (t : Tree α) (ws : List (Write α)) :
    (t.afterAll ws).start = t.start ∧
      (t.afterAll ws).files = (t.accepted ws).foldl (storedBy t.start) t.files := by
  induction ws generalizing t with
  | nil => exact ⟨rfl, rfl⟩
  | cons w ws ih =>
    have hwrote := wrote_writeOn t w.disk w.path w.data
    have hrest := ih (t.carryOut w).1
    rw [afterAll, List.foldl_cons, ← afterAll, accepted]
    generalize ht : t.carryOut w = r at hrest ⊢
    rw [carryOut] at ht
    rw [ht] at hwrote
    cases hwrote with
    | refused hgrows => rwa [hgrows.start, hgrows.files] at hrest
    | @stored t' hgrows =>
      rw [List.foldl_cons, storedBy, ← hgrows.files]
      have hstart : (t'.put (Path.location t.start w.path) w.data).start = t.start := hgrows.start
      dsimp only at hrest
      rwa [hstart] at hrest

theorem IsSound.afterAll (hs : t.IsSound) (ws : List (Write α)) : (t.afterAll ws).IsSound := by
  refine List.foldlRecOn ws _ hs fun t hs w _ => ?_
  have hwrote := wrote_writeOn t w.disk w.path w.data
  generalize ht : t.carryOut w = r
  rw [carryOut] at ht
  rw [ht] at hwrote
  cases hwrote with
  | refused hgrows => exact hgrows.sound hs
  | stored hgrows hsound => exact hsound (hgrows.sound hs)

/-- Files that are written into an empty tree make a sound one. -/
theorem isSound_ofFiles (files : List (String × α)) (start : Location) :
    (ofFiles files start).IsSound := by
  have hempty : ({ start } : Tree α).IsSound := by
    refine ⟨fun l name h => ?_, fun _ _ => rfl⟩
    simp only [isTaken_iff, isFolder_iff, List.not_mem_nil, or_false, List.lookup_nil,
      Option.isSome_none, Bool.false_eq_true] at h ⊢
    exact (List.prefix_append l [name]).trans h
  have hwritten := hempty.afterAll (files.map fun f => { path := f.1.toList, data := f.2 })
  rw [afterAll, List.foldl_map] at hwritten
  exact hwritten

/-- **Writes happen as a whole or not at all.** After any writes of any data in any tree, on disks
that refuse whatever they like, the files are those from before with what the successful writes
stored at their paths, in this order. A write that fails changes no file and leaves no temporary
one, and the directories that it may leave are empty; after one that succeeds, its path leads to its
data. -/
theorem writes_are_all_or_nothing {α : Type} [Inhabited α] :
    (∀ (t : Tree α) ws, (t.afterAll ws).files = (t.accepted ws).foldl (storedBy t.start) t.files ∧
      (t.IsSound → (t.afterAll ws).IsSound)) ∧
    ∀ (t : Tree α) w, (∀ e, (t.carryOut w).2 = .error e → Spares t (t.carryOut w).1) ∧
      ((t.carryOut w).2 = .ok () → (t.carryOut w).1.read w.path = .ok w.data) := by
  refine ⟨fun t ws => ⟨(t.afterAll_eq ws).2, fun hs => hs.afterAll ws⟩, fun t w => ?_⟩
  have hwrote := wrote_writeOn t w.disk w.path w.data
  rw [← carryOut] at hwrote
  refine ⟨fun e he => ?_, hwrote.read⟩
  generalize ht : t.carryOut w = r at *
  cases hwrote with
  | refused hgrows => exact hgrows.spares
  | stored => cases he

/-- Bytes that are written to a new file, to the directory it is in, below the file, on a full disk,
along a path that leads out of a directory again, out of the working directory, and from the
root. -/
theorem writes_are_all_or_nothing_of_failures :
    let full : Disk (List UInt8) :=
      { refuses := fun r => if r = .syncDraft then some .noSpace else none }
    let t : Tree (List UInt8) := { files := [(["home", "b"], [0])], start := ["home", "work"] }
    let ws : List (Write (List UInt8)) := [
      { path := "a/b".toList, data := [1] }, { path := "a".toList, data := [2] },
      { path := "a/b/c".toList, data := [3] }, { disk := full, path := "n/x".toList, data := [4] },
      { path := "a/../x".toList, data := [5, 255] }, { path := "../b".toList, data := [6] },
      { path := "/etc/new/x".toList, data := [] }]
    (t.accepted ws).map (·.data) = [[1], [5, 255], [6], []] ∧
      (t.afterAll ws).files = [(["etc", "new", "x"], []), (["home", "b"], [6]),
        (["home", "work", "x"], [5, 255]), (["home", "work", "a", "b"], [1])] ∧
      (t.afterAll ws).folders = [["etc", "new"], ["etc"], ["home", "work", "n"],
        ["home", "work", "a"]] := by
  intro full t ws
  have hfiles := (writes_are_all_or_nothing.1 t ws).1
  refine ⟨by decide +kernel, ?_, by decide +kernel⟩
  rw [hfiles]
  decide +kernel

end Tree
end Progression
