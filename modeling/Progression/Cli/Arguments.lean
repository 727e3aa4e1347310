import Progression.Cli.Form

/-!
Reading the command line. The arguments are read from left to right, and the first one that does
not fit, or that asks for help or for the version, ends the reading. What must be given is looked
for at the end. The options of every command may stand before or after the names of the commands;
of several places the innermost one counts.
-/

namespace Progression.Cli

/-- Why there is nothing to be done. The forms are given from the outermost one. -/
inductive Stop where
  | misused
  | help (forms : List Form)
  | version (forms : List Form)
  deriving Repr

/-- A command with what was given to it, the newest first. -/
structure Given where
  form : Form
  values : List (String × String) := []
  switches : List String := []
  deriving Repr

/-- A command line that has been read up to some point. -/
structure Reading where
  current : Given
  /-- The commands around it, the innermost first. -/
  outer : List Given := []
  /-- The option whose value comes next. -/
  waiting : Option Parameter := none
  /-- Whether everything that comes is an argument, options no longer being known. -/
  literal : Bool := false
  deriving Repr

namespace Given

variable (g : Given)

def has (name : String) : Bool := g.switches.contains name || g.values.any (·.1 = name)

def value? (name : String) : Option String := g.values.lookup name

/-- A value added. It must be of the right kind, and most values can be given only once. -/
def addValue (p : Parameter) (value : String) : Except Stop Given :=
  if !(p.kind.any (·.accepts value)) || (g.has p.name && !p.isRepeated) then .error .misused
  else .ok { g with values := (p.name, value) :: g.values }

def addSwitch (p : Parameter) : Except Stop Given :=
  if g.has p.name then .error .misused else .ok { g with switches := p.name :: g.switches }

/-- Whether everything is there that must be given. -/
def isComplete : Bool :=
  (g.form.arguments ++ g.form.options).all fun p => !p.isRequired || g.has p.name

end Given

namespace Reading

variable (r : Reading)

def forms : List Form := (r.current :: r.outer).reverse.map (·.form)

/-- A value for an option or an argument. -/
def give (p : Parameter) (value : String) : Except Stop Reading := do
  return { r with current := ← r.current.addValue p value, waiting := none }

/-- An option by its name, with a value attached or none. -/
def long (name : String) (attached : Option String) : Except Stop Reading :=
  match r.current.form.option? name, attached with
  | some p, some value => if p.kind.isSome then r.give p value else .error .misused
  | some p, none =>
    if p.kind.isSome then .ok { r with waiting := some p }
    else return { r with current := ← r.current.addSwitch p }
  | none, none =>
    if name = "help" then .error (.help r.forms)
    else if name = "version" then .error (.version r.forms)
    else .error .misused
  | none, some _ => .error .misused

def letters (r : Reading) : List Char → Except Stop Reading
  | [] => .ok r
  | c :: cs =>
    match r.current.form.letter? c with
    | some p => do
      let current ← r.current.addSwitch p
      letters { r with current } cs
    | none =>
      if c = 'h' then .error (.help r.forms)
      else if c = 'V' then .error (.version r.forms)
      else .error .misused

/-- An argument: the first one that is still missing. -/
def argument (value : String) : Except Stop Reading :=
  match r.current.form.arguments.find? fun p => !r.current.has p.name with
  | some p => r.give p value
  | none => .error .misused

def helpOn : List Form → List String → Stop
  | forms, [] => .help forms
  | forms, name :: names =>
    match forms.getLast?.bind (·.command? name) with
    | some f => helpOn (forms ++ [f]) names
    | none => .misused

/-- The part of an option before an equals sign, and the part after it. -/
def splitOption (s : List Char) : String × Option String :=
  let name := s.takeWhile (· ≠ '=')
  match s.drop name.length with
  | _ :: value => (String.ofList name, some (String.ofList value))
  | [] => (String.ofList name, none)

def step (arg : String) : Except Stop Reading :=
  match r.waiting, arg.toList with
  | some p, '-' :: _ :: _ => let _ := p; .error .misused
  | some p, _ => r.give p arg
  | none, s =>
    if r.literal then r.argument arg
    else match s with
      | ['-', '-'] => .ok { r with literal := true }
      | '-' :: '-' :: s => let (name, value) := splitOption s; r.long name value
      | '-' :: c :: cs => r.letters (c :: cs)
      | _ =>
        match r.current.form.command? arg with
        | some form => .ok { current := { form }, outer := r.current :: r.outer }
        | none => r.argument arg

def run (r : Reading) : List String → Except Stop Reading
  | [] => .ok r
  | arg :: args => do
    if r.waiting.isNone && !r.literal && arg = "help" && !r.current.form.commands.isEmpty then
      throw (helpOn r.forms args)
    run (← r.step arg) args

def isComplete : Bool :=
  r.waiting.isNone && r.current.form.commands.isEmpty && r.current.isComplete

def hasSwitch (name : String) : Bool := (r.current :: r.outer).any (·.switches.contains name)

/-- The value that was given to an option of every command. -/
def globalValue? (name : String) : Option String :=
  (r.current :: r.outer).findSome? (·.value? name)

/-- Whether the configuration file was given to every command on the way. -/
def namesConfig : Bool := (r.current :: r.outer).all (·.has "config")

end Reading

/-- What a command line gives. A variable that names the configuration file must not be empty,
unless an option names one for every command on the way. -/
def readArguments (fromEnv : Option String) (args : List String) : Except Stop Reading := do
  let r ← Reading.run { current := { form := program } } args
  if !r.isComplete || (fromEnv = some "" && !r.namesConfig) then throw .misused
  return r

end Progression.Cli
