import Mathlib.Data.List.Nodup
import Progression.Config.Text
import Progression.Proofs.Json.Numbers

/-!
Configurations from documents in which something is missing. A document is pruned (`Yaml.prune`):
sections go, and fields of the sections that stay. What is read from the pruned document is the
configuration with defaults in those places (`Config.ofYaml?_prune`); section by section this is
`Yaml.record?_ofFields` with `Yaml.optional_lookup` for each of the fields.
-/

namespace Progression

namespace Number

theorem isPadded_decimal (n : Nat) : Yaml.isPadded (decimal n) = false := by
  have hdigits := isAsciiDigit_decimal n
  obtain ⟨c, cs, hcs⟩ := List.exists_cons_of_ne_nil (decimal_ne_nil n)
  have hc : Text.isAsciiDigit c = true := hdigits c (by simp [hcs])
  have hsigned : Yaml.isSigned (decimal n) = false := by
    rw [hcs, Yaml.isSigned, Bool.or_eq_false_iff, beq_eq_false_iff_ne, beq_eq_false_iff_ne]
    constructor <;> rintro rfl <;> exact absurd hc (by decide)
  rw [Yaml.isPadded, hsigned]
  rcases head_decimal n with hzero | hne
  · rw [hzero]
    rfl
  · rw [hcs] at hne ⊢
    have hzero : c ≠ '0' := by simpa using hne
    simp only [Bool.false_eq_true, if_false]
    split
    · next h => exact absurd (List.cons.inj h).1 hzero
    · rfl

theorem natural?_decimal {n limit : Nat} (h : n < limit) :
    Yaml.natural? limit (decimal n) = some n := by
  have hdigits := isAsciiDigit_decimal n
  have hunsigned : Yaml.unsignedPart (decimal n) = decimal n := by
    unfold Yaml.unsignedPart
    split
    · next s hs => exact absurd (hdigits '+' (by simp [hs])) (by decide)
    · rfl
  have hradix : ∀ mark : List Char, (∃ x ∈ mark, Text.isAsciiDigit x = false) →
      Text.after? mark (decimal n) = none := by
    rintro mark ⟨x, hx, hnot⟩
    rw [Option.eq_none_iff_forall_ne_some]
    intro rest hrest
    have hmem : x ∈ decimal n := by
      rw [Text.after?_eq_some_iff.1 hrest]
      exact List.mem_append_left rest hx
    rw [hdigits x hmem] at hnot
    cases hnot
  unfold Yaml.natural?
  dsimp only
  rw [hunsigned, hradix _ ⟨'x', by decide, by decide⟩, hradix _ ⟨'o', by decide, by decide⟩,
    hradix _ ⟨'b', by decide, by decide⟩, isPadded_decimal, digits?_decimal]
  simp [h]

end Number

namespace Yaml

/-! ### Records -/

variable {fs : List (String × Yaml)} {keep : String → Bool} {k : String} {v : Yaml}

/-- A mapping without the entries whose keys are not kept. -/
def restrict (keep : String → Bool) : Yaml → Yaml
  | mapping entries => mapping (entries.filter fun e => e.1.string?.any keep)
  | v => v

theorem restrict_ofFields (keep : String → Bool) (fs : List (String × Yaml)) :
    (ofFields fs).restrict keep = ofFields (fs.filter fun f => keep f.1) := by
  rw [ofFields, restrict, List.filter_map]
  rfl

theorem lookup_filter (keep : String → Bool) (k : String) (fs : List (String × Yaml)) :
    (fs.filter fun f => keep f.1).lookup k = if keep k then fs.lookup k else none := by
  induction fs with
  | nil => simp
  | cons f fs ih =>
    obtain ⟨name, v⟩ := f
    by_cases hk : k = name
    · subst hk
      by_cases hkeep : keep k <;> simp [hkeep, ih]
    · have hne : (k == name) = false := by simpa using hk
      by_cases hkeep : keep name <;> simp [List.lookup_cons, hkeep, hne, ih]

/-- What is written item by item is read item by item. -/
theorem mapM_map_eq_some {α β : Type} {write : α → β} {read : β → Option α}
    (h : ∀ a, read (write a) = some a) (l : List α) : (l.map write).mapM read = some l := by
  induction l with
  | nil => rfl
  | cons a l ih =>
    rw [List.map_cons, List.mapM_cons, ih, h]
    rfl

/-- The fields of a record that is written, none of them twice. -/
theorem record?_ofFields (h : (fs.map (·.1)).Nodup) (names : List String) :
    (ofFields fs).record? names = some (names.map fun n => fs.lookup n) := by
  have htwice : (names.any fun n => decide (1 < (fs.filter fun f => f.1 = n).length)) = false := by
    rw [List.any_eq_false]
    intro n _
    have hcount : (fs.filter fun f => f.1 = n).length = (fs.map (·.1)).count n := by
      rw [List.count_eq_countP, List.countP_map, List.countP_eq_length_filter]
      rfl
    have hle := List.nodup_iff_count_le_one.1 h n
    simpa [hcount] using hle
  rw [record?, ofFields, entries?, Option.bind_eq_bind, Option.bind_some, Option.bind_eq_bind,
    mapM_map_eq_some, Option.bind_some, htwice]
  · rfl
  · exact fun _ => rfl

/-- A field is read as what it says where it is kept, else it has its default. -/
theorem optional_lookup {α : Type} {read : Yaml → Option α} {x : α} (keep : String → Bool)
    (fs : List (String × Yaml)) (k : String) (hk : fs.lookup k = some v) (hread : read v = some x)
    (d : α) :
    optional d read ((fs.filter fun f => keep f.1).lookup k) = some (if keep k then x else d) := by
  rw [lookup_filter, hk]
  cases keep k
  · rfl
  · exact hread

theorem optional_lookup_none {α : Type} (hk : fs.lookup k = none) (read : Yaml → Option α) (d : α) :
    optional d read ((fs.filter fun f => keep f.1).lookup k) = some d := by
  rw [lookup_filter, hk, ite_self]
  rfl

theorem nodup_filter (h : (fs.map (·.1)).Nodup) (keep : String → Bool) :
    ((fs.filter fun f => keep f.1).map (·.1)).Nodup :=
  h.sublist (List.filter_sublist.map _)

theorem numeral?_ofNat (kind : String) (n : Nat) :
    (ofNat n).numeral? kind = some (Number.decimal n) := by
  rw [ofNat, plain, numeral?, Number.text, String.toList_ofList]

theorem word64?_ofNat (n : UInt64) : word64? (ofNat n.toNat) = some n := by
  rw [word64?, numeral?_ofNat, Option.bind_some, Number.natural?_decimal n.toNat_lt_size]
  simp

theorem word32?_ofNat (n : UInt32) : word32? (ofNat n.toNat) = some n := by
  have hlt : n.toNat < UInt32.size := n.toNat_lt_size
  have hle : UInt32.size ≤ UInt64.size := by decide
  rw [word32?, numeral?_ofNat, Option.bind_some, Number.natural?_decimal (by omega),
    Option.bind_some, if_pos hlt]
  simp

end Yaml

/-! ### Sections -/

/-- What is kept of a configuration in a document: sections, the version among them, and fields of
the sections that are kept. -/
structure Selection where
  sections : String → Bool := fun _ => true
  fields : String → String → Bool := fun _ _ => true

/-- The document with what is kept of it. -/
def Yaml.prune (s : Selection) : Yaml → Yaml
  | mapping entries =>
    mapping ((entries.filter fun e => e.1.string?.any s.sections).map fun e =>
      (e.1, e.2.restrict (s.fields (e.1.string?.getD ""))))
  | v => v

/-- The section with its defaults for the fields that are not kept. -/
def Timing.keeping (keep : String → Bool) (t : Timing) : Timing :=
  let d : Timing := {}
  { tick := if keep "tick_interval_ms" then t.tick else d.tick
    interactionTimeout :=
      if keep "interaction_timeout_secs" then t.interactionTimeout else d.interactionTimeout
    settleDelay := if keep "settle_delay_ms" then t.settleDelay else d.settleDelay
    switchDelay := if keep "class_switch_delay_ms" then t.switchDelay else d.switchDelay
    switchTimeout := if keep "class_switch_timeout_secs" then t.switchTimeout else d.switchTimeout }

def Limits.keeping (keep : String → Bool) (l : Limits) : Limits :=
  let d : Limits := {}
  { iterations := if keep "while_iteration_limit" then l.iterations else d.iterations
    includeDepth := if keep "max_include_depth" then l.includeDepth else d.includeDepth }

def Goals.keeping (keep : String → Bool) (g : Goals) : Goals :=
  let d : Goals := {}
  { gatherers := if keep "gatherer_target_level" then g.gatherers else d.gatherers
    crafters := if keep "crafter_target_level" then g.crafters else d.crafters
    cap := if keep "level_cap" then g.cap else d.cap
    skipped := if keep "skip_classes" then g.skipped else d.skipped }

def RunnerSettings.keeping (keep : String → Bool) (r : RunnerSettings) : RunnerSettings :=
  let d : RunnerSettings := {}
  { baseUrl := if keep "base_url" then r.baseUrl else d.baseUrl
    pollInterval := if keep "poll_interval_ms" then r.pollInterval else d.pollInterval
    requestTimeout := if keep "request_timeout_secs" then r.requestTimeout else d.requestTimeout }

/-- The configuration with the defaults for what is not kept. -/
def Config.keeping (s : Selection) (c : Config) : Config :=
  let d : Config := {}
  { version := if s.sections "version" then c.version else d.version
    timing := if s.sections "timing" then c.timing.keeping (s.fields "timing") else d.timing
    limits :=
      if s.sections "interpreter" then c.limits.keeping (s.fields "interpreter") else d.limits
    goals := if s.sections "progression" then c.goals.keeping (s.fields "progression") else d.goals
    runner := if s.sections "crafting" then c.runner.keeping (s.fields "crafting") else d.runner }

/-- The fields of the section, as they are written. -/
def Timing.fields (t : Timing) : List (String × Yaml) :=
  fieldNames.zip
    [Yaml.ofNat t.tick.toNat, Yaml.ofNat t.interactionTimeout.toNat, Yaml.ofNat t.settleDelay.toNat,
      Yaml.ofNat t.switchDelay.toNat, Yaml.ofNat t.switchTimeout.toNat]

theorem Timing.ofYaml?_restrict (keep : String → Bool) (t : Timing) :
    ofYaml? ((t.write : Yaml).restrict keep) = some (t.keeping keep) := by
  have hwrite : (t.write : Yaml) = Yaml.ofFields t.fields := rfl
  have hnodup : (t.fields.map (·.1)).Nodup := by
    show fieldNames.Nodup
    decide
  have field (k : String) {n : UInt64} (hk : t.fields.lookup k = some (Yaml.ofNat n.toNat)) :=
    Yaml.optional_lookup keep t.fields k hk (Yaml.word64?_ofNat n)
  have htick := field "tick_interval_ms" rfl 250
  have hinteraction := field "interaction_timeout_secs" rfl 90
  have hsettle := field "settle_delay_ms" rfl 2000
  have hdelay := field "class_switch_delay_ms" rfl 3000
  have hswitch := field "class_switch_timeout_secs" rfl 10
  rw [hwrite, Yaml.restrict_ofFields, ofYaml?,
    Yaml.record?_ofFields (Yaml.nodup_filter hnodup keep)]
  simp only [fieldNames, List.map_cons, List.map_nil, Option.bind_eq_bind, Option.bind_some]
  rw [htick, hinteraction, hsettle, hdelay, hswitch]
  rfl

def Limits.fields (l : Limits) : List (String × Yaml) :=
  fieldNames.zip [Yaml.ofNat l.iterations.toNat, Yaml.ofNat l.includeDepth.toNat]

theorem Limits.ofYaml?_restrict (keep : String → Bool) (l : Limits) :
    ofYaml? ((l.write : Yaml).restrict keep) = some (l.keeping keep) := by
  have hwrite : (l.write : Yaml) = Yaml.ofFields l.fields := rfl
  have hnodup : (l.fields.map (·.1)).Nodup := by
    show fieldNames.Nodup
    decide
  have hiterations := Yaml.optional_lookup keep l.fields "while_iteration_limit" rfl
    (Yaml.word32?_ofNat l.iterations) 10000
  have hdepth := Yaml.optional_lookup keep l.fields "max_include_depth" rfl
    (Yaml.word64?_ofNat l.includeDepth) 16
  rw [hwrite, Yaml.restrict_ofFields, ofYaml?,
    Yaml.record?_ofFields (Yaml.nodup_filter hnodup keep)]
  simp only [fieldNames, List.map_cons, List.map_nil, Option.bind_eq_bind, Option.bind_some]
  rw [hiterations, hdepth]
  rfl

def Goals.fields (g : Goals) : List (String × Yaml) :=
  fieldNames.zip
    ([Yaml.ofNat g.gatherers.toNat, Yaml.ofNat g.crafters.toNat, Yaml.ofNat g.cap.toNat]
      ++ if g.skipped.isEmpty then [] else
        [Yaml.sequence (g.skipped.map fun j => Yaml.ofString j.name)])

theorem Job.ofYaml?_name (j : Job) : ofYaml? (Yaml.ofString j.name) = some j := by
  cases j <;> decide

theorem Goals.ofYaml?_restrict (keep : String → Bool) (g : Goals) :
    ofYaml? ((g.write : Yaml).restrict keep) = some (g.keeping keep) := by
  have hwrite : (g.write : Yaml) = Yaml.ofFields g.fields := rfl
  have hnodup : (g.fields.map (·.1)).Nodup := by
    have hnames : (fieldNames : List String).Nodup := by decide
    refine hnames.sublist ?_
    unfold fields
    split <;> simp [fieldNames]
  have field (k : String) {n : UInt32} (hk : g.fields.lookup k = some (Yaml.ofNat n.toNat)) :=
    Yaml.optional_lookup keep g.fields k hk (Yaml.word32?_ofNat n)
  have hgatherers := field "gatherer_target_level" rfl 20
  have hcrafters := field "crafter_target_level" rfl 20
  have hcap := field "level_cap" rfl 100
  have hskipped : Yaml.optional [] (fun v => do (← v.items?).mapM Job.ofYaml?)
      ((g.fields.filter fun f => keep f.1).lookup "skip_classes") =
        some (if keep "skip_classes" then g.skipped else []) := by
    cases hs : g.skipped with
    | nil =>
      have hnone : g.fields.lookup "skip_classes" = none := by
        unfold fields
        rw [hs]
        rfl
      rw [Yaml.optional_lookup_none hnone, ite_self]
    | cons j js =>
      have hlookup : g.fields.lookup "skip_classes" =
          some (Yaml.sequence ((j :: js).map fun j => Yaml.ofString j.name)) := by
        unfold fields
        rw [hs]
        rfl
      have hread := Yaml.mapM_map_eq_some Job.ofYaml?_name (j :: js)
      exact Yaml.optional_lookup keep g.fields "skip_classes" hlookup hread []
  rw [hwrite, Yaml.restrict_ofFields, ofYaml?,
    Yaml.record?_ofFields (Yaml.nodup_filter hnodup keep)]
  simp only [fieldNames, List.map_cons, List.map_nil, Option.bind_eq_bind, Option.bind_some]
  rw [hgatherers, hcrafters, hcap]
  simp only [Option.bind_eq_bind] at hskipped
  rw [Option.bind_some, Option.bind_some, Option.bind_some, hskipped]
  rfl

def RunnerSettings.fields (r : RunnerSettings) : List (String × Yaml) :=
  fieldNames.zip
    [Yaml.ofString r.baseUrl, Yaml.ofNat r.pollInterval.toNat, Yaml.ofNat r.requestTimeout.toNat]

theorem RunnerSettings.ofYaml?_restrict (keep : String → Bool) (r : RunnerSettings) :
    ofYaml? ((r.write : Yaml).restrict keep) = some (r.keeping keep) := by
  have hwrite : (r.write : Yaml) = Yaml.ofFields r.fields := rfl
  have hnodup : (r.fields.map (·.1)).Nodup := by
    show fieldNames.Nodup
    decide
  have hurl := Yaml.optional_lookup keep r.fields "base_url" rfl (x := r.baseUrl)
    (rfl : Yaml.string? (Yaml.ofString r.baseUrl) = some r.baseUrl) "http://127.0.0.1:5050"
  have hinterval := Yaml.optional_lookup keep r.fields "poll_interval_ms" rfl
    (Yaml.word64?_ofNat r.pollInterval) 2000
  have htimeout := Yaml.optional_lookup keep r.fields "request_timeout_secs" rfl
    (Yaml.word64?_ofNat r.requestTimeout) 5
  rw [hwrite, Yaml.restrict_ofFields, ofYaml?,
    Yaml.record?_ofFields (Yaml.nodup_filter hnodup keep)]
  simp only [fieldNames, List.map_cons, List.map_nil, Option.bind_eq_bind, Option.bind_some]
  rw [hurl, hinterval, htimeout]
  rfl

/-! ### The whole -/

namespace Config

variable {s : Selection}

def fields (c : Config) : List (String × Yaml) :=
  fieldNames.zip
    [Yaml.ofNat c.version.toNat, c.timing.write, c.limits.write, c.goals.write, c.runner.write]

/-- The sections with what is kept of each. -/
def restricted (s : Selection) (c : Config) : List (String × Yaml) :=
  c.fields.map fun f => (f.1, f.2.restrict (s.fields f.1))

theorem prune_write (s : Selection) (c : Config) : (c.write : Yaml).prune s =
    Yaml.ofFields ((c.restricted s).filter fun f => s.sections f.1) := by
  have hwrite : (c.write : Yaml) = Yaml.ofFields c.fields := rfl
  rw [hwrite, restricted, List.filter_map, Yaml.ofFields, Yaml.ofFields, Yaml.prune,
    List.filter_map, List.map_map, List.map_map]
  rfl

/-- A document is read as the configuration that is kept in it. -/
theorem ofYaml?_prune (s : Selection) (c : Config) :
    ofYaml? ((c.write : Yaml).prune s) = some (c.keeping s) := by
  have hnodup : ((c.restricted s).map (·.1)).Nodup := by
    show fieldNames.Nodup
    decide
  have hversion := Yaml.optional_lookup s.sections (c.restricted s) "version" rfl
    (Yaml.word32?_ofNat c.version) 1
  have htiming := Yaml.optional_lookup s.sections (c.restricted s) "timing" rfl
    (c.timing.ofYaml?_restrict (s.fields "timing")) {}
  have hlimits := Yaml.optional_lookup s.sections (c.restricted s) "interpreter" rfl
    (c.limits.ofYaml?_restrict (s.fields "interpreter")) {}
  have hgoals := Yaml.optional_lookup s.sections (c.restricted s) "progression" rfl
    (c.goals.ofYaml?_restrict (s.fields "progression")) {}
  have hrunner := Yaml.optional_lookup s.sections (c.restricted s) "crafting" rfl
    (c.runner.ofYaml?_restrict (s.fields "crafting")) {}
  rw [prune_write, ofYaml?, Yaml.record?_ofFields (Yaml.nodup_filter hnodup s.sections)]
  simp only [fieldNames, List.map_cons, List.map_nil, Option.bind_eq_bind, Option.bind_some]
  rw [hversion, htiming, hlimits, hgoals, hrunner]
  rfl

end Config

end Progression
