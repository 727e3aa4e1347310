import Progression.Cli.Arguments

/-!
Help on a command: what it does, how it is used, the commands below it, its arguments and its
options. Each list has two columns, the second one at the column of the widest entry.
-/

namespace Progression.Cli

/-- A name in capitals, as it stands for a value. -/
def placeholder (name : String) : String :=
  "<" ++ String.ofList (name.toList.map fun c => if c = '-' then '_' else c.toUpper) ++ ">"

def Parameter.usage (p : Parameter) : String :=
  "--" ++ p.name ++ if p.kind.isSome then " " ++ placeholder p.name else ""

/-- A text followed by blanks up to a width. -/
def padded (width : Nat) (s : String) : String :=
  s ++ String.ofList (List.replicate (width - s.length) ' ')

def columns (rows : List (String × String)) : String :=
  let width := (rows.map (·.1.length)).foldl max 0
  String.join (rows.map fun (a, b) => "  " ++ padded width a ++ "  " ++ b ++ "\n")

/-- A heading with what is below it, if there is anything. -/
def section_ (heading : String) (rows : List (String × String)) : String :=
  if rows.isEmpty then "" else "\n" ++ heading ++ ":\n" ++ columns rows

def optionRow (letter : Option Char) (usage help : String) : String × String :=
  (match letter with
    | some c => "-" ++ String.singleton c ++ ", " ++ usage
    | none => "    " ++ usage, help)

def Parameter.about (fromEnv : Option String) (p : Parameter) : String :=
  if p.name = "config" then
    p.help ++ " [env: " ++ configVariable ++ "=" ++ fromEnv.getD "" ++ "] [default: "
      ++ defaultConfig ++ "]"
  else p.help

def usageLine (forms : List Form) (f : Form) : String :=
  " ".intercalate
    (forms.map (·.name) ++ ["[OPTIONS]"]
      ++ (f.options.filter (·.isRequired)).map Parameter.usage
      ++ f.arguments.map (placeholder ·.name)
      ++ if f.commands.isEmpty then [] else ["<COMMAND>"])

/-- The commands below a command, and the one for help. -/
def commandRows (f : Form) : List (String × String) :=
  if f.commands.isEmpty then []
  else f.commands.map (fun c => (c.name, c.about))
    ++ [("help", "Print this message or the help of the given subcommand(s)")]

/-- Help on the last of several forms, each below the one before. -/
def helpText (fromEnv : Option String) (forms : List Form) : String :=
  let f := forms.getLastD program
  f.about ++ "\n\nUsage: " ++ usageLine forms f ++ "\n"
    ++ section_ "Commands" (commandRows f)
    ++ section_ "Arguments" (f.arguments.map fun p => (placeholder p.name, p.help))
    ++ section_ "Options"
      (f.allOptions.map (fun p => optionRow p.letter p.usage (p.about fromEnv))
        ++ [optionRow (some 'h') "--help" "Print help",
          optionRow (some 'V') "--version" "Print version"])

/-- The version of the last of several forms. -/
def versionText (forms : List Form) : String :=
  "-".intercalate (forms.map (·.name)) ++ " " ++ version ++ "\n"

end Progression.Cli
