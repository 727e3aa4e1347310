import Progression.Config
import Progression.Error
import Progression.Files.Tree
import Progression.Yaml.Reader
import Progression.Yaml.Writer

/-!
The configuration as a document. What is missing has its default, section by section and field by
field; what is no field is passed over.
-/

namespace Progression

open Document (number)

/-! ### Sections -/

namespace Timing

def fieldNames : List String :=
  ["tick_interval_ms", "interaction_timeout_secs", "settle_delay_ms", "class_switch_delay_ms",
    "class_switch_timeout_secs"]

/-- The section, written. -/
def write {α : Type} [Document α] (t : Timing) : α :=
  Document.record (fieldNames.zip
    [number t.tick.toNat, number t.interactionTimeout.toNat, number t.settleDelay.toNat,
      number t.switchDelay.toNat, number t.switchTimeout.toNat])

def ofYaml? (v : Yaml) : Option Timing := do
  match ← v.record? fieldNames with
  | [tick, interaction, settle, delay, switch] =>
    let d : Timing := {}
    return {
      tick := ← Yaml.optional d.tick Yaml.word64? tick
      interactionTimeout := ← Yaml.optional d.interactionTimeout Yaml.word64? interaction
      settleDelay := ← Yaml.optional d.settleDelay Yaml.word64? settle
      switchDelay := ← Yaml.optional d.switchDelay Yaml.word64? delay
      switchTimeout := ← Yaml.optional d.switchTimeout Yaml.word64? switch }
  | _ => none

end Timing

namespace Limits

def fieldNames : List String := ["while_iteration_limit", "max_include_depth"]

/-- The section, written. -/
def write {α : Type} [Document α] (l : Limits) : α :=
  Document.record (fieldNames.zip [number l.iterations.toNat, number l.includeDepth.toNat])

def ofYaml? (v : Yaml) : Option Limits := do
  match ← v.record? fieldNames with
  | [iterations, depth] =>
    let d : Limits := {}
    return {
      iterations := ← Yaml.optional d.iterations Yaml.word32? iterations
      includeDepth := ← Yaml.optional d.includeDepth Yaml.word64? depth }
  | _ => none

end Limits

def Job.ofYaml? (v : Yaml) : Option Job := v.variant?.bind fun name => Job.ofName? name.toList

namespace Goals

def fieldNames : List String :=
  ["gatherer_target_level", "crafter_target_level", "level_cap", "skip_classes"]

/-- The section, written. The classes that are left alone are not mentioned if there are none. -/
def write {α : Type} [Document α] (g : Goals) : α :=
  Document.record (fieldNames.zip
    ([number g.gatherers.toNat, number g.crafters.toNat, number g.cap.toNat]
      ++ if g.skipped.isEmpty then [] else [Document.list (g.skipped.map Document.job)]))

def ofYaml? (v : Yaml) : Option Goals := do
  match ← v.record? fieldNames with
  | [gatherers, crafters, cap, skipped] =>
    let d : Goals := {}
    let jobs (v : Yaml) : Option (List Job) := do (← v.items?).mapM Job.ofYaml?
    return {
      gatherers := ← Yaml.optional d.gatherers Yaml.word32? gatherers
      crafters := ← Yaml.optional d.crafters Yaml.word32? crafters
      cap := ← Yaml.optional d.cap Yaml.word32? cap
      skipped := ← Yaml.optional d.skipped jobs skipped }
  | _ => none

end Goals

namespace RunnerSettings

def fieldNames : List String := ["base_url", "poll_interval_ms", "request_timeout_secs"]

/-- The section, written. -/
def write {α : Type} [Document α] (r : RunnerSettings) : α :=
  Document.record (fieldNames.zip
    [Document.text r.baseUrl, number r.pollInterval.toNat, number r.requestTimeout.toNat])

def ofYaml? (v : Yaml) : Option RunnerSettings := do
  match ← v.record? fieldNames with
  | [url, interval, timeout] =>
    let d : RunnerSettings := {}
    return {
      baseUrl := ← Yaml.optional d.baseUrl Yaml.string? url
      pollInterval := ← Yaml.optional d.pollInterval Yaml.word64? interval
      requestTimeout := ← Yaml.optional d.requestTimeout Yaml.word64? timeout }
  | _ => none

end RunnerSettings

/-! ### The whole -/

namespace Config

/-- The names of the sections, after the version. -/
def fieldNames : List String := ["version", "timing", "interpreter", "progression", "crafting"]

/-- The configuration, written. -/
def write {α : Type} [Document α] (c : Config) : α :=
  Document.record (fieldNames.zip
    [number c.version.toNat, c.timing.write, c.limits.write, c.goals.write, c.runner.write])

def ofYaml? (v : Yaml) : Option Config := do
  match ← v.record? fieldNames with
  | [version, timing, limits, goals, runner] =>
    return {
      version := ← Yaml.optional 1 Yaml.word32? version
      timing := ← Yaml.optional {} Timing.ofYaml? timing
      limits := ← Yaml.optional {} Limits.ofYaml? limits
      goals := ← Yaml.optional {} Goals.ofYaml? goals
      runner := ← Yaml.optional {} RunnerSettings.ofYaml? runner }
  | _ => none

def read (text : String) : Except Error Config :=
  match (Yaml.read? text).bind ofYaml? with
  | some c => .ok c
  | none => .error .yaml

def text (c : Config) : String := Yaml.render c.write

def load (files : Tree) (path : String) : Except Error Config :=
  match files.read path.toList with
  | .ok text => read text
  | .error e => .error (.file e)

/-- The configuration in a file, or the default one if nothing stands there. -/
def loadOrDefault (files : Tree) (path : String) : Except Error Config :=
  if files.has path.toList then load files path else .ok {}

def save (files : Tree) (path : String) (c : Config) : Tree × Except FileFault Unit :=
  files.write path.toList c.text

end Config
end Progression
