import Progression.Proofs.Pruning
import Progression.Proofs.Storing
import Progression.Proofs.Yaml.Reading

/-!
Configurations that are saved and loaded again. The text of a configuration has a passage for each
section; the text of the pruned document is the text of the whole with passages and fields cut out
(`Config.render_prune`), and is read back as that document as long as no section has lost all of its
fields.
-/

namespace Progression

/-! ### Documents that are read back -/

namespace Yaml

variable {fs : List (String × Yaml)}

theorem isScalar_ofNat (n : Nat) : IsScalar (ofNat n) := by
  have hdigits := isAsciiDigit_decimal n
  have hname : IsName (Number.decimal n) := by
    refine ⟨decimal_ne_nil n, fun c hc => ?_, fun h => ?_⟩
    · have hdigit : c.isDigit = true := hdigits c hc
      simp [isNamePart, Char.isAlphanum, hdigit]
    · exact absurd (hdigits '-' (List.mem_of_mem_head? h)) (by decide)
  refine ⟨.plain, Number.text n, rfl, ?_⟩
  rw [Number.text, String.toList_ofList]
  exact hname.plainForm

theorem isScalar_ofString (s : String) : IsScalar (ofString s) :=
  ⟨styleOf s, s, rfl, fits_styleOf s⟩

/-- Fields that are read back from their text. -/
def AllWritable (fs : List (String × Yaml)) : Prop := ∀ f ∈ fs, IsKey (ofString f.1) ∧ Writable f.2

theorem allWritable_zip {names : List String} {vs : List Yaml}
    (hnames : ∀ name ∈ names, IsKey (ofString name)) (hvs : ∀ v ∈ vs, Writable v) :
    AllWritable (names.zip vs) := fun _ hf =>
  ⟨hnames _ (List.of_mem_zip hf).1, hvs _ (List.of_mem_zip hf).2⟩

theorem AllWritable.filter (h : AllWritable fs) (keep : String → Bool) :
    AllWritable (fs.filter fun f => keep f.1) := fun f hf => h f (List.mem_of_mem_filter hf)

theorem writable_ofFields (hne : fs ≠ []) (h : AllWritable fs) : Writable (ofFields fs) := by
  refine .mapping (by simpa using hne) (fun e he => ?_) fun e he => ?_
  · obtain ⟨f, hf, rfl⟩ := List.mem_map.1 he
    exact (h f hf).1
  · obtain ⟨f, hf, rfl⟩ := List.mem_map.1 he
    exact (h f hf).2

end Yaml

/-- Every name of a section or of a field is a key that is written as it is. -/
theorem isKey_fieldName : ∀ name ∈ Config.fieldNames ++ Timing.fieldNames ++ Limits.fieldNames ++
    Goals.fieldNames ++ RunnerSettings.fieldNames, Yaml.IsKey (Yaml.ofString name) := by
  intro name hname
  have hchecked : Yaml.styleOf name = .plain ∧ name.toList ≠ [] ∧
      (∀ c ∈ name.toList, Yaml.isNamePart c = true) ∧ name.toList.head? ≠ some '-' ∧
      name.toList.length ≤ 1024 := by
    revert name
    decide +kernel
  obtain ⟨hstyle, hne, hpart, hhead, hlength⟩ := hchecked
  exact ⟨name, by rw [Yaml.ofString, hstyle, Yaml.plain], ⟨hne, hpart, hhead⟩, hlength⟩

open Yaml (AllWritable Writable)

theorem Timing.allWritable_fields (t : Timing) : AllWritable t.fields := by
  refine Yaml.allWritable_zip (fun name hname => isKey_fieldName name (by simp [hname])) ?_
  simp [Writable.scalar, Yaml.isScalar_ofNat]

theorem Limits.allWritable_fields (l : Limits) : AllWritable l.fields := by
  refine Yaml.allWritable_zip (fun name hname => isKey_fieldName name (by simp [hname])) ?_
  simp [Writable.scalar, Yaml.isScalar_ofNat]

theorem Goals.allWritable_fields (g : Goals) : AllWritable g.fields := by
  refine Yaml.allWritable_zip (fun name hname => isKey_fieldName name (by simp [hname])) ?_
  intro v hv
  rcases List.mem_append.1 hv with hv | hv
  · simp only [List.mem_cons, List.not_mem_nil, or_false] at hv
    rcases hv with rfl | rfl | rfl <;> exact .scalar (Yaml.isScalar_ofNat _)
  · split at hv
    · cases hv
    · next hskipped =>
      rw [List.mem_singleton.1 hv]
      refine .sequence (by simpa using hskipped) fun v hv => ?_
      obtain ⟨j, -, rfl⟩ := List.mem_map.1 hv
      exact Yaml.isScalar_ofString j.name

theorem RunnerSettings.allWritable_fields (r : RunnerSettings) : AllWritable r.fields := by
  refine Yaml.allWritable_zip (fun name hname => isKey_fieldName name (by simp [hname])) ?_
  simp [Writable.scalar, Yaml.isScalar_ofNat, Yaml.isScalar_ofString]

namespace Config

variable {s : Selection} {c : Config}

/-- A section is a number or has fields. -/
theorem cases_of_mem_fields : ∀ f ∈ c.fields, Yaml.IsKey (Yaml.ofString f.1) ∧
    ((∃ n, f.2 = Yaml.ofNat n) ∨ ∃ fs, f.2 = Yaml.ofFields fs ∧ fs ≠ [] ∧ AllWritable fs) := by
  rintro ⟨name, v⟩ hf
  obtain ⟨hname, hvalue⟩ := List.of_mem_zip hf
  refine ⟨isKey_fieldName name (by simp [hname]), ?_⟩
  simp only [List.mem_cons, List.not_mem_nil, or_false] at hvalue
  rcases hvalue with hversion | htiming | hlimits | hgoals | hrunner
  · exact .inl ⟨_, hversion⟩
  · exact .inr ⟨_, htiming, nofun, c.timing.allWritable_fields⟩
  · exact .inr ⟨_, hlimits, nofun, c.limits.allWritable_fields⟩
  · exact .inr ⟨_, hgoals, nofun, c.goals.allWritable_fields⟩
  · exact .inr ⟨_, hrunner, nofun, c.runner.allWritable_fields⟩

end Config

/-! ### Text with parts cut out -/

/-- A section as text: its first line, or all of it if it has no fields, and its fields under their
names. -/
structure Passage where
  name : String
  head : List Char
  fields : List (String × List Char) := []

def Passage.text (p : Passage) : List Char := p.head ++ p.fields.flatMap (·.2)

namespace Yaml

/-- The text of one field at a column. -/
def fieldText (column : Nat) (f : String × Yaml) : List Char :=
  entriesText column [(ofString f.1, f.2)]

/-- The text of one section. -/
def passage : String × Yaml → Passage
  | (name, mapping entries) =>
    { name, head := scalarText 2 (styleOf name) name ++ ":\n".toList
      fields := entries.map fun e => (e.1.string?.getD "", entriesText 2 [e]) }
  | (name, v) => { name, head := fieldText 0 (name, v) }

theorem entriesText_flatMap (column : Nat) (es : List (Yaml × Yaml)) :
    entriesText column es = es.flatMap fun e => entriesText column [e] := by
  induction es with
  | nil => rfl
  | cons e es ih =>
    rw [List.flatMap_cons, ← ih]
    obtain ⟨key, v⟩ := e
    cases key <;> simp [entriesText]

@[simp]
theorem passage_name (f : String × Yaml) : (passage f).name = f.1 := by
  unfold passage
  split <;> rfl

theorem passage_ofFields (name : String) (fs : List (String × Yaml)) : passage (name, ofFields fs) =
    { name, head := scalarText 2 (styleOf name) name ++ ":\n".toList
      fields := fs.map fun g => (g.1, fieldText 2 g) } := by
  rw [ofFields, passage, List.map_map]
  rfl

theorem fieldText_ofFields (name : String) {fs : List (String × Yaml)} (h : fs ≠ []) :
    fieldText 0 (name, ofFields fs) =
      scalarText 2 (styleOf name) name ++ ":\n".toList ++ fs.flatMap (fieldText 2) := by
  have hfields : entriesText 2 (fs.map fun f => (ofString f.1, f.2)) =
      fs.flatMap (fieldText 2) := by
    rw [entriesText_flatMap, List.flatMap_map]
    rfl
  have hne : (fs.map fun f => (ofString f.1, f.2)) ≠ [] := by simpa using h
  have hcolon : ":\n".toList = [':', '\n'] := rfl
  rw [fieldText, ofFields, ofString, entriesText, valueText_mapping hne, hfields, hcolon]
  simp [entriesText, spaces]

end Yaml

namespace Selection

variable (s : Selection)

def keep (p : Passage) : Passage :=
  { p with fields := p.fields.filter fun f => s.fields p.name f.1 }

/-- What is kept of a text in passages. -/
def cut (ps : List Passage) : List Passage := (ps.filter fun p => s.sections p.name).map s.keep

/-- Something is kept, and no section is kept without any of its fields. -/
structure Fills (ps : List Passage) : Prop where
  sections : ∃ p ∈ ps, s.sections p.name = true
  fields : ∀ p ∈ ps, s.sections p.name = true → p.fields ≠ [] →
    ∃ f ∈ p.fields, s.fields p.name f.1 = true

end Selection

namespace Config

variable {s : Selection} {c : Config}

/-- The text of a configuration in its passages. -/
def passages (c : Config) : List Passage := c.fields.map Yaml.passage

/-- The text with what is not kept of it cut out. -/
def textKeeping (s : Selection) (c : Config) : String :=
  String.ofList ((s.cut c.passages).flatMap Passage.text)

/-- A section that is kept is written as what is kept of its passage, and is read back. -/
theorem fieldText_restrict (h : s.Fills c.passages) {f : String × Yaml} (hf : f ∈ c.fields)
    (hkept : s.sections f.1 = true) :
    Yaml.fieldText 0 (f.1, f.2.restrict (s.fields f.1)) = (s.keep (Yaml.passage f)).text ∧
      Writable (f.2.restrict (s.fields f.1)) := by
  obtain ⟨name, v⟩ := f
  obtain ⟨-, ⟨n, hv⟩ | ⟨fs, hv, hne, hwritable⟩⟩ := cases_of_mem_fields _ hf
  · dsimp only at hv
    subst hv
    exact ⟨(List.append_nil _).symm, .scalar (Yaml.isScalar_ofNat n)⟩
  · dsimp only at hv
    subst hv
    have hpassage := Yaml.passage_ofFields name fs
    have hmem : Yaml.passage (name, Yaml.ofFields fs) ∈ c.passages := List.mem_map_of_mem hf
    obtain ⟨x, hx, hkeep⟩ := h.fields _ hmem hkept (by rw [hpassage]; simpa using hne)
    rw [hpassage] at hx hkeep ⊢
    obtain ⟨g, hg, rfl⟩ := List.mem_map.1 hx
    have hne' : (fs.filter fun f => s.fields name f.1) ≠ [] :=
      List.ne_nil_of_mem (List.mem_filter.2 ⟨hg, hkeep⟩)
    rw [Yaml.restrict_ofFields]
    refine ⟨?_, Yaml.writable_ofFields hne' (hwritable.filter _)⟩
    rw [Yaml.fieldText_ofFields name hne', Passage.text, Selection.keep, List.filter_map,
      List.flatMap_map]
    rfl

theorem render_prune (h : s.Fills c.passages) : Writable ((c.write : Yaml).prune s) ∧
    Yaml.render ((c.write : Yaml).prune s) = c.textKeeping s := by
  have hkept : (c.restricted s).filter (fun f => s.sections f.1) =
      (c.fields.filter fun f => s.sections f.1).map fun f =>
        (f.1, f.2.restrict (s.fields f.1)) := by
    rw [restricted, List.filter_map]
    rfl
  have hcut : s.cut c.passages =
      (c.fields.filter fun f => s.sections f.1).map fun f => s.keep (Yaml.passage f) := by
    simp [Selection.cut, passages, List.filter_map, Function.comp_def]
  have hsection (f) (hf : f ∈ c.fields.filter fun f => s.sections f.1) :=
    fieldText_restrict h (List.mem_of_mem_filter hf) (List.mem_filter.1 hf).2
  have hne : (c.fields.filter fun f => s.sections f.1) ≠ [] := by
    obtain ⟨p, hp, hkeep⟩ := h.sections
    obtain ⟨f, hf, rfl⟩ := List.mem_map.1 hp
    exact List.ne_nil_of_mem (List.mem_filter.2 ⟨hf, by simpa using hkeep⟩)
  rw [prune_write, hkept, textKeeping, hcut]
  constructor
  · refine Yaml.writable_ofFields (by simpa using hne) fun f hf => ?_
    obtain ⟨g, hg, rfl⟩ := List.mem_map.1 hf
    exact ⟨(cases_of_mem_fields g (List.mem_of_mem_filter hg)).1, (hsection g hg).2⟩
  · rw [Yaml.ofFields, Yaml.render_mapping (by simpa using hne), Yaml.entriesText_flatMap,
      List.map_map, List.flatMap_map, List.flatMap_map]
    exact congrArg String.ofList (List.flatMap_congr fun f hf => (hsection f hf).1)

theorem read_textKeeping (h : s.Fills c.passages) : read (c.textKeeping s) = .ok (c.keeping s) := by
  obtain ⟨hwritable, hrender⟩ := render_prune h
  have hread : Yaml.read? (Yaml.render ((c.write : Yaml).prune s)) =
      some ((c.write : Yaml).prune s) := by
    rw [prune_write] at hwritable ⊢
    exact Yaml.read?_render hwritable
  rw [← hrender, read, hread, Option.bind_some, ofYaml?_prune]

theorem prune_all (c : Config) : (c.write : Yaml).prune {} = c.write := by
  have hall (fs : List (String × Yaml)) :
      (Yaml.ofFields fs).restrict (fun _ => true) = Yaml.ofFields fs := by
    rw [Yaml.restrict_ofFields, List.filter_true]
  have hsections : c.restricted {} = c.fields := by
    show [("version", Yaml.ofNat c.version.toNat),
      ("timing", (Yaml.ofFields c.timing.fields).restrict fun _ => true),
      ("interpreter", (Yaml.ofFields c.limits.fields).restrict fun _ => true),
      ("progression", (Yaml.ofFields c.goals.fields).restrict fun _ => true),
      ("crafting", (Yaml.ofFields c.runner.fields).restrict fun _ => true)] = _
    simp only [hall]
    rfl
  rw [prune_write, hsections, List.filter_true]
  rfl

theorem fills_all (c : Config) : ({} : Selection).Fills c.passages := by
  refine ⟨⟨_, List.mem_cons_self, rfl⟩, fun p _ _ hne => ?_⟩
  obtain ⟨f, fs, hfields⟩ := List.exists_cons_of_ne_nil hne
  exact ⟨f, by simp [hfields], rfl⟩

theorem text_eq (c : Config) : c.text = c.textKeeping {} := by
  have hrender := (render_prune (fills_all c)).2
  rwa [prune_all] at hrender

theorem read_text (c : Config) : read c.text = .ok c := by
  rw [text_eq]
  exact read_textKeeping (fills_all c)

/-- **Saved configurations are loaded again, with defaults for what is missing.** What has been
saved is loaded as it was. The text may also have lost sections, and fields of the sections that are
left, as long as something is left and no section has lost all of its fields: it is loaded as the
configuration with defaults in the places of what is gone. -/
theorem saved_is_loaded (c : Config) :
    (∀ files path, (save files path c).2 = .ok () → load (save files path c).1 path = .ok c) ∧
    c.text = c.textKeeping {} ∧
    ∀ s : Selection, s.Fills c.passages → ∀ (files : Tree) (path : String),
      files.read path.toList = .ok (c.textKeeping s) → load files path = .ok (c.keeping s) := by
  refine ⟨fun files path hsave => ?_, text_eq c, fun s hfills files path hfile => ?_⟩
  · have hwrote := files.wrote_writeOn {} path.toList c.text
    have hfile : (save files path c).1.read path.toList = .ok c.text := hwrote.read hsave
    rw [load, hfile]
    exact read_text c
  · rw [load, hfile]
    exact read_textKeeping hfills

/-- A configuration with a text of two lines in it, as it is saved, and then without a section and
without a field. -/
theorem saved_is_loaded_without_timing :
    let c : Config := {
      timing := { tick := 5 }
      goals := { cap := 90, skipped := [.miner] }
      runner := { baseUrl := "here\nthere", pollInterval := 7 } }
    let s : Selection := {
      sections := (· ≠ "timing"), fields := fun _ field => field ≠ "level_cap" }
    let path := "etc/config.yaml"
    let text := "version: 1\n" ++
      "interpreter:\n  while_iteration_limit: 10000\n  max_include_depth: 16\n" ++
      "progression:\n  gatherer_target_level: 20\n  crafter_target_level: 20\n" ++
      "  skip_classes:\n  - miner\n" ++
      "crafting:\n  base_url: |-\n    here\n    there\n  poll_interval_ms: 7\n" ++
      "  request_timeout_secs: 5\n"
    (save {} path c).2 = .ok () ∧ load (save {} path c).1 path = .ok c ∧
      c.textKeeping s = text ∧ load (.ofFiles [(path, text)]) path =
        .ok { c with timing := {}, goals := { c.goals with cap := 100 } } := by
  intro c s path text
  have hsave : (save {} path c).2 = .ok () := by decide +kernel
  have htext : c.textKeeping s = text := by decide +kernel
  have hfills : s.Fills c.passages := ⟨by decide +kernel, by decide +kernel⟩
  obtain ⟨hload, -, hcut⟩ := saved_is_loaded c
  refine ⟨hsave, hload {} path hsave, htext, hcut s hfills _ path ?_⟩
  rw [htext]
  decide +kernel

end Config

end Progression
