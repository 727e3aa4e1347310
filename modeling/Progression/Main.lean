import Progression.Cli.Run

/-!
The program. It sees the files in its working directory and below, runs on them, and writes back
the files that it changed. It opens no connections: the order runner is a remote that no request
reaches.
-/

namespace Progression

/-- The files among some entries of a directory and below them, by their paths, up to a depth. What
cannot be read as text is left out. -/
def readEntries (lead : String) : Nat → List IO.FS.DirEntry → IO (List (String × String))
  | 0, _ => return []
  | _, [] => return []
  | depth + 1, entry :: entries => do
    let path := lead ++ entry.fileName
    let found ←
      if ← entry.path.isDir then
        readEntries (path ++ "/") depth (← entry.path.readDir).toList
      else
        match ← (IO.FS.readFile entry.path).toBaseIO with
        | .ok text => pure [(path, text)]
        | .error _ => pure []
    return found ++ (← readEntries lead (depth + 1) entries)
termination_by depth entries => (depth, entries.length)

/-- Writes the files that are new or changed. -/
def writeFiles (before after : Tree) : IO Unit :=
  for (path, text) in after.toFiles do
    if (before.read path.toList).toOption ≠ some text then
      let directory := String.ofList (Path.directory path.toList)
      if directory ≠ "" then IO.FS.createDirAll directory
      IO.FS.writeFile path text

/-- The greatest depth of directories that are looked into. -/
def deepest : Nat := 16

/-- How many looks at the order runner a watch may take. -/
def longestWatch : Nat := 1000000

end Progression

open Progression in
/-- A run of the program on its arguments. -/
def main (args : List String) : IO UInt32 := do
  let directory ← IO.currentDir
  let start := (directory.toString.splitOn "/").filter (· ≠ "")
  let files := Tree.ofFiles (← readEntries "" deepest (← directory.readDir).toList) start
  let (ending, world) :=
    Cli.run Runner.Remote.silent longestWatch (← IO.getEnv Cli.configVariable) args
      { files, line := { remote := () } }
  writeFiles files world.files
  IO.print ending.output
  IO.eprint ending.errors
  return ending.code.toUInt32
