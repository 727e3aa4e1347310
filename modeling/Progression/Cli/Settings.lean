import Progression.Cli.Plan

/-!
The configuration file: what is to be said about it, showing it and making one.
-/

namespace Progression.Cli

/-- What is to be said about tables, or about why there are none. -/
def tablesRemarks (files : Tree) (path : String) : List Remark :=
  match Tables.load files path with
  | .ok t => t.remarks
  | .error e => [⟨.error, "tables " ++ path ++ ": " ++ e.message⟩]

def remarkJson (r : Remark) : Json :=
  .object [("level", .string r.severity.name), ("message", .string r.message)]

/-- The command that says what is to be said about the configuration and about tables. It fails if
there is an error. -/
def validate (files : Tree) (config : String) (tables : Option String) (json : Bool) : Report :=
  withConfig files config fun c =>
    let remarks := c.remarks ++ (tables.map (tablesRemarks files)).getD []
    (if json then Report.ofJson (.object [("warnings", .array (remarks.map remarkJson))])
      else if remarks.isEmpty then .ofLines ["Config is valid. No warnings."]
      else .ofLines (remarks.map fun r => "[" ++ r.severity.name ++ "] " ++ r.message)).failIf
        (remarks.any (·.severity = .error)) "validation failed"

def showConfig (files : Tree) (config : String) (json : Bool) : Report :=
  withConfig files config fun c =>
    if json then .ofJson c.write else { output := c.text }

def initConfig (files : Tree) (config : String) (force json : Bool) : Report × Tree :=
  if files.has config.toList && !force then
    (.failed (config ++ " already exists (use --force to overwrite)"), files)
  else
    match Config.save files config {} with
    | (files, .error e) => (.failed ("failed to write " ++ config ++ ": " ++ e.message), files)
    | (files, .ok ()) =>
      (if json then .ofJson (.object [("written", .string config)])
        else .ofLines ["Wrote " ++ config], files)

end Progression.Cli
