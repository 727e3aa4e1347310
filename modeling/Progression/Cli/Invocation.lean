import Progression.Cli.Arguments

/-!
What a command line asks for.
-/

namespace Progression.Cli

/-- An order that is asked for. -/
structure OrderTask where
  item : UInt32
  amount : UInt32
  /-- The name of the class that works it off. -/
  job : String
  hq : Bool := false
  quickSynth : Bool := false
  url : Option String := none
  dryRun : Bool := false
  deriving DecidableEq, Repr

/-- A command for the order runner. -/
inductive Control where
  | stop | resume | home
  | runFile (path : String)
  deriving DecidableEq, Repr

/-- The name of a command for the order runner. -/
def Control.name : Control → String
  | stop => "stop"
  | resume => "resume"
  | home => "home"
  | runFile _ => "run-file"

/-- What there is to do. -/
inductive Task where
  | check (program : String) (follow : Bool)
  | plan (tables job : String) (level : UInt32) (completed : List UInt32)
  | validate (tables : Option String)
  | showConfig
  | initConfig (force : Bool)
  | order (order : OrderTask)
  | health (url : Option String)
  | status (url : Option String)
  | control (control : Control) (url : Option String)
  deriving DecidableEq, Repr

/-- A task, with the configuration file and the form of the output. -/
structure Invocation where
  config : String := defaultConfig
  json : Bool := false
  task : Task
  deriving DecidableEq, Repr

/-- The task that a command asks for, by the names of the forms. -/
def Given.task? (g : Given) : List String → Option Task
  | ["check"] => return .check (← g.value? "program") (g.switches.contains "follow")
  | ["plan"] => do
    let completed ← (g.values.reverse.filter (·.1 = "completed")).mapM fun v => numbers? v.2
    return .plan (← g.value? "tables") (← g.value? "class") (← number? (← g.value? "level"))
      completed.flatten
  | ["validate"] => some (.validate (g.value? "tables"))
  | ["config", "show"] => some .showConfig
  | ["config", "init"] => some (.initConfig (g.switches.contains "force"))
  | ["order"] => do
    return .order {
      item := ← number? (← g.value? "item")
      amount := ← number? (← g.value? "amount")
      job := ← g.value? "class"
      hq := g.switches.contains "hq"
      quickSynth := g.switches.contains "quick-synth"
      url := g.value? "url"
      dryRun := g.switches.contains "dry-run" }
  | ["health"] => some (.health (g.value? "url"))
  | ["status"] => some (.status (g.value? "url"))
  | ["stop"] => some (.control .stop (g.value? "url"))
  | ["resume"] => some (.control .resume (g.value? "url"))
  | ["home"] => some (.control .home (g.value? "url"))
  | ["run-file"] => return .control (.runFile (← g.value? "path")) (g.value? "url")
  | _ => none

def Invocation.read (fromEnv : Option String) (args : List String) : Except Stop Invocation := do
  let r ← readArguments fromEnv args
  match r.current.task? (r.forms.tail.map (·.name)) with
  | some task =>
    return {
      config := ((r.globalValue? "config") <|> fromEnv).getD defaultConfig
      json := r.hasSwitch "json"
      task }
  | none => throw .misused

end Progression.Cli
