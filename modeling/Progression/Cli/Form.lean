import Progression.Number.Digits
import Progression.Text.Search

/-!
The forms of the command line: every command with its arguments, its options and the commands
below it.
-/

namespace Progression.Cli

open Progression.Text Progression.Number

/-! ### Values -/

/-- What a value must be. -/
inductive Kind where
  /-- The path of a file, which is not empty. -/
  | path
  | text
  /-- A number of 32 bits. -/
  | number
  | numbers
  deriving DecidableEq, Repr

/-- A number of 32 bits, after a sign or none. -/
def number? (s : String) : Option UInt32 :=
  match s.toList with
  | '-' :: ds => if (digits? 10 ds) = some 0 then some 0 else none
  | ds => word32? 10 ds

def numbers? (s : String) : Option (List UInt32) :=
  (divide ',' s.toList).mapM fun part => number? (String.ofList part)

def Kind.accepts : Kind → String → Bool
  | path, s => s ≠ ""
  | text, _ => true
  | number, s => (number? s).isSome
  | numbers, s => (numbers? s).isSome

/-! ### Forms -/

/-- An argument or an option. -/
structure Parameter where
  name : String
  /-- What its value must be; a switch has none. -/
  kind : Option Kind := none
  letter : Option Char := none
  isRequired : Bool := false
  isRepeated : Bool := false
  help : String := ""
  deriving Repr

/-- A command. -/
structure Form where
  name : String
  about : String
  /-- Arguments that have no name on the command line. -/
  arguments : List Parameter := []
  options : List Parameter := []
  /-- The commands below it, one of which must follow. -/
  commands : List Form := []
  deriving Repr

/-- The variable that names the configuration file when no option does. -/
def configVariable : String := "WRANGLER_CONFIG"

def defaultConfig : String := "wrangler.yaml"

def globalOptions : List Parameter :=
  [{ name := "config", kind := some .path, help := "Configuration file" },
    { name := "json", letter := some 'j', help := "Output as JSON" }]

/-- The option for the address of the runner. -/
def urlOption (help : String) : Parameter := { name := "url", kind := some .text, help }

/-- What is said about the address of the runner. -/
def urlHelp : String := "Runner base URL (overrides crafting.base_url)"

def tablesHelp : String := "Progression tables (YAML)"

def commands : List Form :=
  [{ name := "check", about := "Parse a step program and report what it contains",
      arguments :=
        [{ name := "program", kind := some .path, isRequired := true, help := "Program file" }],
      options := [{ name := "follow", help := "Also parse every LoadProfile target, recursively" }] },
    { name := "plan", about := "Show what the leveling loop would do for a class at a level",
      options :=
        [{ name := "tables", kind := some .path, isRequired := true, help := tablesHelp },
          { name := "class", kind := some .text, isRequired := true,
            help := "Class name, e.g. miner or ClassJobType.Weaver" },
          { name := "level", kind := some .number, isRequired := true },
          { name := "completed", kind := some .numbers, isRepeated := true,
            help := "Objective ids already completed (comma separated)" }] },
    { name := "validate", about := "Validate the configuration and, optionally, a tables file",
      options := [{ name := "tables", kind := some .path, help := tablesHelp }] },
    { name := "config", about := "Show or create the configuration file",
      commands :=
        [{ name := "show",
            about := "Print the effective configuration (defaults when the file is absent)" },
          { name := "init", about := "Write a configuration file populated with defaults",
            options := [{ name := "force", help := "Overwrite an existing file" }] }] },
    { name := "order", about := "Submit one order to the order runner and wait for it to finish",
      options :=
        [{ name := "item", kind := some .number, isRequired := true },
          { name := "amount", kind := some .number, isRequired := true },
          { name := "class", kind := some .text, isRequired := true,
            help := "Producing class; gatherers submit a Gather order" },
          { name := "hq", help := "Request high quality" },
          { name := "quick-synth", help := "Let the runner use quick synthesis" },
          urlOption urlHelp,
          { name := "dry-run", help := "Print the order JSON instead of sending it" }] },
    { name := "health", about := "Check that the order runner is up and answering",
      options := [urlOption urlHelp] },
    { name := "status", about := "Show the order runner's full status", options := [urlOption ""] },
    { name := "stop", about := "Ask the order runner to stop after its current step",
      options := [urlOption ""] },
    { name := "resume", about := "Resume orders the runner left incomplete",
      options := [urlOption ""] },
    { name := "home", about := "Send the character to the runner's home location",
      options := [urlOption ""] },
    { name := "run-file", about := "Start an order file that already exists on the runner's machine",
      arguments :=
        [{ name := "path", kind := some .text, isRequired := true,
            help := "Path as the runner sees it" }],
      options := [urlOption ""] }]

def program : Form where
  name := "wrangler"
  about := "Class progression tooling: inspect step programs, preview leveling plans, "
    ++ "talk to the order runner"
  commands := commands

def version : String := "0.1.0"

namespace Form

variable (f : Form)

def allOptions : List Parameter := f.options ++ globalOptions

def option? (name : String) : Option Parameter := f.allOptions.find? (·.name = name)

def letter? (c : Char) : Option Parameter := f.allOptions.find? (·.letter = some c)

/-- The command of a name below a command. -/
def command? (name : String) : Option Form := f.commands.find? (·.name = name)

end Form
end Progression.Cli
