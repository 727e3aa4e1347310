import Progression.Cli.Check
import Progression.Cli.Help
import Progression.Cli.Remote
import Progression.Cli.Settings
import Progression.Runner.Silent

/-!
A run of the program: its arguments, the variable that names the configuration file, the files and
the line to the order runner go in; an exit code, what is printed, and the files and the line
afterwards come out.
-/

namespace Progression.Cli

open Progression.Runner

/-- What a run changes. -/
structure World (σ : Type) where
  files : Tree
  line : Line σ

/-- How a run ends. -/
structure Ending where
  code : UInt8
  output : String := ""
  errors : String := ""
  deriving DecidableEq, Repr

def Ending.ofReport (r : Report) : Ending :=
  match r.failure with
  | none => { code := 0, output := r.output }
  | some reason => { code := 1, output := r.output, errors := "error: " ++ reason ++ "\n" }

/-- The ending of a run without a task. -/
def Ending.ofStop (fromEnv : Option String) : Stop → Ending
  | .misused => { code := 2, errors := helpText fromEnv [program] }
  | .help forms => { code := 0, output := helpText fromEnv forms }
  | .version forms => { code := 0, output := versionText forms }

section Run

variable {σ : Type} (remote : Remote σ) (rounds : Nat)

/-- The configured settings of the order runner, with another address if one is given. -/
def clientOf (c : Config) (url : Option String) : Client σ :=
  Client.ofSettings remote rounds { c.runner with baseUrl := url.getD c.runner.baseUrl }

/-- A command that talks to the order runner. -/
def withClient (config : String) (url : Option String) (w : World σ)
    (command : Client σ → Line σ → Report × Line σ) : Report × World σ :=
  match Config.loadOrDefault w.files config with
  | .error e => (.failed (configFailure config e), w)
  | .ok c =>
    let (report, line) := command (clientOf remote rounds c url) w.line
    (report, { w with line })

def perform (i : Invocation) (w : World σ) : Report × World σ :=
  match i.task with
  | .check path follow => (check w.files path follow i.json, w)
  | .plan tables job level completed =>
    (plan w.files i.config tables job level completed i.json, w)
  | .validate tables => (validate w.files i.config tables i.json, w)
  | .showConfig => (showConfig w.files i.config i.json, w)
  | .initConfig force =>
    let (report, files) := initConfig w.files i.config force i.json
    (report, { w with files })
  | .order t => withClient remote rounds i.config t.url w fun c line => order c i.json line t
  | .health url => withClient remote rounds i.config url w fun c line => health c i.json line
  | .status url => withClient remote rounds i.config url w fun c line => status c i.json line
  | .control k url => withClient remote rounds i.config url w fun c line => control c i.json line k

def run (fromEnv : Option String) (args : List String) (w : World σ) : Ending × World σ :=
  match Invocation.read fromEnv args with
  | .error stop => (.ofStop fromEnv stop, w)
  | .ok i =>
    let (report, w) := perform remote rounds i w
    (.ofReport report, w)

end Run
end Progression.Cli
