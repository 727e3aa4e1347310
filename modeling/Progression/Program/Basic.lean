import Progression.Condition.Parser
import Progression.Files.Tree
import Progression.Markup.Entity
import Progression.Markup.Reader
import Progression.Order.Batch
import Progression.Program.Step

/-!
Programs: steps read from markup, with what can be said about them without running them. Programs
that are loaded by a program stay on file until it runs.
-/

namespace Progression

open Progression.Markup (Node)

/-- A program. -/
structure Program where
  name : Option String
  path : Option String
  /-- The directory from which the paths of loaded programs are taken. -/
  base : String
  root : Node
  steps : List Step

/-- A remark about an element. -/
structure Diagnostic where
  line : Nat
  tag : String
  message : String
  deriving DecidableEq, Repr

namespace Step

mutual

/-- The paths of the programs that a step loads, in order. -/
def loads : Step → List String
  | branch _ body => loadsOf body
  | loop _ body => loadsOf body
  | block body => loadsOf body
  | load path => [path]
  | _ => []

def loadsOf : List Step → List String
  | [] => []
  | s :: ss => loads s ++ loadsOf ss

end

/-- What is to be remarked about a step: tags and attributes that say nothing, and conditions and
orders that will not be understood. -/
def remarks : Step → List String
  | unknown .. => ["unknown tag, will be skipped"]
  | invalid _ _ reason => [reason]
  | branch condition _ => (Condition.parse condition).unknowns.map unrecognized
  | loop condition _ => (Condition.parse condition).unknowns.map unrecognized
  | craft orders =>
    match Batch.read? orders with
    | some _ => []
    | none => ["order JSON does not parse: " ++ Error.json.message]
  | _ => []
where
  /-- The remark about an unknown part of a condition. -/
  unrecognized (s : String) : String := "unrecognized condition '" ++ s ++ "' evaluates to true"

end Step

/-- A count raised by one, in the order of the names. -/
def countOne (tag : String) : List (String × Nat) → List (String × Nat)
  | [] => [(tag, 1)]
  | e :: es =>
    if e.1 = tag then (tag, e.2 + 1) :: es
    else if tag < e.1 then (tag, 1) :: e :: es
    else e :: countOne tag es

namespace Markup.Node

mutual

/-- The elements at and below an element, each before its children. -/
def all : Node → List Node
  | ⟨tag, attributes, text, children, line⟩ =>
    ⟨tag, attributes, text, children, line⟩ :: allOf children

def allOf : List Node → List Node
  | [] => []
  | n :: ns => all n ++ allOf ns

end

def lint (n : Node) : List Diagnostic :=
  (Step.ofNode n).remarks.map fun message => ⟨n.line, n.tag, message⟩

end Markup.Node

namespace Program

def parse (source base text : String) : Except Error Program := do
  let expanded ← Markup.expand source text.toList
  let root ← Markup.read source expanded
  let steps := Step.ofNodes root.children
  let name := steps.findSome? fun s => match s with
    | .name n => if n = "" then none else some n
    | _ => none
  return { name, path := none, base, root, steps }

def load (files : Tree) (path : String) : Except Error Program := do
  match files.read path.toList with
  | .error e => throw (.file e)
  | .ok text =>
    let program ← parse path (String.ofList (Path.directory path.toList)) text
    return { program with path := some path }

variable (p : Program)

/-- Everything to be remarked about a program, in the order of its elements. -/
def diagnostics : List Diagnostic := (Node.allOf p.root.children).flatMap Node.lint

/-- How many elements of each tag there are below the root, in the order of the tags. -/
def tagCounts : List (String × Nat) :=
  (Node.allOf p.root.children).foldl (fun counts n => countOne n.tag counts) []

/-- The paths of the programs it loads, in order. -/
def includes : List String := (Step.loadsOf p.steps).map (Path.joined p.base)

end Program
end Progression
