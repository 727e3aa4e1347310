import Progression.Json.Writer
import Progression.Text.Blank

/-!
Reports: what a command prints, and the failure with which it ends, if it ends with one.
-/

namespace Progression.Cli

open Progression.Text

/-- What a command prints, and its failure. -/
structure Report where
  output : String := ""
  failure : Option String := none
  deriving DecidableEq, Repr, Inhabited

namespace Report

/-- A failure before anything is printed. -/
def failed (reason : String) : Report := { failure := some reason }

/-- A report with a failure at its end, if there is a reason for one. -/
def failIf (r : Report) (condition : Bool) (reason : String) : Report :=
  if condition then { r with failure := some reason } else r

/-- A JSON value, printed. -/
def ofJson (v : Json) : Report := { output := v.pretty ++ "\n" }

/-- Lines, printed. -/
def ofLines (lines : List String) : Report := { output := String.join (lines.map (· ++ "\n")) }

end Report

/-! ### Tables -/

/-- The widths of columns: the greatest size of a cell, in bytes. -/
def widths (headers : List String) (rows : List (List String)) : List Nat :=
  rows.foldl (fun ws row => ws.zipWith (fun w cell => max w cell.utf8ByteSize) row)
    (headers.map (·.utf8ByteSize))

/-- The cells of a row at the widths of their columns, two blanks between them. -/
def rowLine (widths : List Nat) (cells : List String) : String :=
  let padded := cells.zipWith (fun cell w =>
    cell.toList ++ List.replicate (w - cell.length) ' ') widths
  String.ofList (trimRight ([' ', ' '].intercalate padded))

/-- The lines of a table: headers, a rule, and rows. -/
def tableLines (headers : List String) (rows : List (List String)) : List String :=
  let ws := widths headers rows
  let rule := ws.map fun w => String.ofList (List.replicate w '-')
  (headers :: rule :: rows).map (rowLine ws)

end Progression.Cli
