import Progression.Cli.Report
import Progression.Config
import Progression.Program.Basic

/-!
Checking programs without running them: what a program contains, what is to be remarked about it,
and, if it is to be followed, the same for every program that it loads. A program is reported once,
at the depth where it is met first.
-/

namespace Progression.Cli

open Progression.Number (text)

/-- What is said about a program. -/
structure ProgramReport where
  path : String
  name : Option String := none
  /-- How many programs lie between this one and the first. -/
  depth : Nat
  steps : Nat := 0
  tags : List (String × Nat) := []
  diagnostics : List Diagnostic := []
  /-- Why the program is not one. -/
  failure : Option String := none
  deriving DecidableEq, Repr

namespace ProgramReport

def ofProgram (path : String) (depth : Nat) (p : Program) : ProgramReport :=
  { path, name := p.name, depth, steps := p.steps.length, tags := p.tagCounts
    diagnostics := p.diagnostics }

def failed (path : String) (depth : Nat) (reason : String) : ProgramReport :=
  { path, depth, failure := some reason }

end ProgramReport

/-! ### Following -/

/-- A walk through programs: the paths met so far, and the reports, the newest first. -/
structure Walk where
  seen : List String
  reports : List ProgramReport

namespace Walk

variable (w : Walk)

def hasSeen (path : String) : Bool := w.seen.any fun p => Path.key p.toList = Path.key path.toList

def add (r : ProgramReport) : Walk := { w with reports := r :: w.reports }

/-- The paths that have not been met, each worked off in its turn. -/
def each (visit : String → Walk → Walk) (paths : List String) (w : Walk) : Walk :=
  paths.foldl (fun w path =>
    if w.hasSeen path then w else visit path { w with seen := path :: w.seen }) w

/-- The programs at some paths and those that they load, with so many levels left of a limit. -/
def follow (files : Tree) (limit : Nat) : Nat → List String → Walk → Walk
  | 0 => each fun path w =>
    w.add (.failed path (limit + 1) ("include depth exceeds " ++ text limit))
  | left + 1 => each fun path w =>
    match Program.load files path with
    | .ok p => follow files limit left p.includes (w.add (.ofProgram path (limit - left) p))
    | .error e => w.add (.failed path (limit - left) e.message)

end Walk

/-- The reports on a program and, if it is followed, on those that it loads. -/
def checkReports (files : Tree) (path : String) (p : Program) (follow : Bool) :
    List ProgramReport :=
  let w : Walk := { seen := [path], reports := [.ofProgram path 0 p] }
  if follow then
    let limit := ({} : Limits).includeDepth.toNat
    (Walk.follow files limit limit p.includes w).reports.reverse
  else w.reports

/-! ### Output -/

namespace ProgramReport

variable (r : ProgramReport)

def toJson : Json :=
  let optional (s : Option String) : Json := Document.optional Json.string s
  .object [("path", .string r.path), ("name", optional r.name), ("depth", .ofNat r.depth),
    ("steps", .ofNat r.steps), ("tags", .object (r.tags.map fun (tag, n) => (tag, .ofNat n))),
    ("diagnostics", .array (r.diagnostics.map fun d =>
      .object [("line", .ofNat d.line), ("tag", .string d.tag), ("message", .string d.message)])),
    ("error", optional r.failure)]

/-- The lines of the report, indented by its depth. -/
def lines : List String :=
  let indent := String.join (List.replicate r.depth "  ")
  match r.failure with
  | some reason => [indent ++ r.path ++ ": error: " ++ reason]
  | none =>
    let counts := tableLines ["TAG", "COUNT"] (r.tags.map fun (tag, n) => [tag, text n])
    [indent ++ r.path ++ " [" ++ r.name.getD "(unnamed)" ++ "]: " ++ text r.steps
      ++ " top-level steps"]
    ++ (if r.depth = 0 && !r.tags.isEmpty then "" :: counts ++ [""] else [])
    ++ r.diagnostics.map fun d =>
      indent ++ "  line " ++ text d.line ++ ": <" ++ d.tag ++ "> " ++ d.message

end ProgramReport

def check (files : Tree) (path : String) (follow json : Bool) : Report :=
  match Program.load files path with
  | .error e => .failed ("failed to load " ++ path ++ ": " ++ e.message)
  | .ok p =>
    let reports := checkReports files path p follow
    let broken := (reports.filter (·.failure.isSome)).length
    (if json then Report.ofJson (.array (reports.map ProgramReport.toJson))
      else Report.ofLines (reports.flatMap ProgramReport.lines)).failIf (broken ≠ 0)
        (text broken ++ " included program(s) failed to load")

end Progression.Cli
