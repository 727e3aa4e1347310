import Progression.Error
import Progression.Files.Path

/-!
A tree of files, and the working directory in it. Paths are resolved part by part, from the root
if they begin with a slash and from the working directory if not; above the root is the root.
Writing makes the directories on the way, fills a temporary file beside the target and puts it in
the place of the target; the disk may refuse each of these steps. What files hold is text for a
program that reads them, but writing works for data of any kind.
-/

namespace Progression

open Progression.Text

/-- A place, as the names that lead to it from the root. -/
abbrev Location := List String

/-- Files by location, and directories. The root, the working directory and all between them are
directories, too. -/
structure Tree (α : Type := String) where
  files : List (Location × α) := []
  folders : List Location := []
  /-- The working directory. -/
  start : Location := []
  deriving DecidableEq, Repr, Inhabited

/-- What stands at a place. -/
inductive Place (α : Type) where
  | folder (location : Location)
  | file (location : Location) (data : α)
  /-- Nothing, in a directory that exists. -/
  | missing (location : Location)
  deriving DecidableEq, Repr

/-- Files by location, with one more; it replaces the one at its location. -/
def store {α : Type} (l : Location) (data : α) (files : List (Location × α)) :
    List (Location × α) :=
  (l, data) :: files.filter (·.1 ≠ l)

/-- What a write asks of the disk. -/
inductive DiskRequest where
  | makeFolder (path : List Char)
  | createDraft | fillDraft | syncDraft | rename
  deriving DecidableEq, Repr

namespace Tree

variable {α : Type} (t : Tree α)

def isFolder (l : Location) : Bool := l.isPrefixOf t.start || t.folders.contains l

/-- Whether something stands at a place. -/
def isTaken (l : Location) : Bool := t.isFolder l || (t.files.lookup l).isSome

/-- A name that nothing in a directory has. There are more candidates than files and directories. -/
def freeName (folder : Location) : String :=
  let taken := t.files.length + t.folders.length + t.start.length
  let names := (List.range (taken + 1)).map fun i => ".tmp" ++ Number.text i
  (names.find? fun name => !t.isTaken (folder ++ [name])).getD ""

end Tree

/-- The disk below a tree: what it refuses for reasons that the tree does not show, and the names it
gives to temporary files in a directory. -/
structure Disk (α : Type := String) where
  refuses : DiskRequest → Option FileFault := fun _ => none
  draftName : Tree α → Location → String := Tree.freeName

namespace Tree

variable {α : Type} (t : Tree α)

/-- The greatest length of a part of a path, in bytes. -/
def longestPart : Nat := 255

/-- What stands at the parts of a path, seen from a directory. -/
def locate (from_ : Location) : List (List Char) → Except FileFault (Place α)
  | [] => .ok (.folder from_)
  | p :: ps =>
    let name := String.ofList p
    if p = [] ∨ p = ['.'] then locate from_ ps
    else if p = ['.', '.'] then locate from_.dropLast ps
    else if longestPart < name.utf8ByteSize then .error .nameTooLong
    else if t.isFolder (from_ ++ [name]) then locate (from_ ++ [name]) ps
    else match t.files.lookup (from_ ++ [name]) with
      | some data => if ps.isEmpty then .ok (.file (from_ ++ [name]) data) else .error .notDirectory
      | none => if ps.all (·.isEmpty) then .ok (.missing (from_ ++ [name])) else .error .notFound

/-- Where a path begins. -/
def origin (p : List Char) : Location := if Path.isAbsolute p then [] else t.start

def place (p : List Char) : Except FileFault (Place α) :=
  if p.contains '\x00' then .error .invalidName
  else if p.isEmpty then .error .notFound
  else t.locate (t.origin p) (Path.parts p)

def read (p : List Char) : Except FileFault α :=
  match t.place p with
  | .ok (.file _ data) => .ok data
  | .ok (.folder _) => .error .isDirectory
  | .ok (.missing _) => .error .notFound
  | .error e => .error e

def has (p : List Char) : Bool :=
  match t.place p with
  | .ok (.missing _) => false
  | .ok _ => true
  | .error _ => false

def hasFolder (p : List Char) : Bool :=
  match t.place p with
  | .ok (.folder _) => true
  | _ => false

def makeFolder (d : Disk α) (p : List Char) : Except FileFault (Tree α) :=
  match t.place p with
  | .ok (.missing l) =>
    match d.refuses (.makeFolder p) with
    | some e => .error e
    | none => .ok { t with folders := l :: t.folders }
  | .ok _ => .error .alreadyExists
  | .error e => .error e

/-- Makes a directory and those above it, as far as they are missing. What was made before a
failure stays. -/
def makeFolders (d : Disk α) (p : List Char) : Tree α × Except FileFault Unit :=
  if p = [] then (t, .ok ())
  else match t.makeFolder d p with
    | .ok t => (t, .ok ())
    | .error .notFound =>
      match _h : Path.parent? p with
      | none => (t, .error .notFound)
      | some q =>
        match makeFolders d q with
        | (t, .error e) => (t, .error e)
        | (t, .ok ()) =>
          match t.makeFolder d p with
          | .ok t => (t, .ok ())
          | .error e => (t, if t.hasFolder p then .ok () else .error e)
    | .error e => (t, if t.hasFolder p then .ok () else .error e)
termination_by p.length
decreasing_by exact Path.length_of_parent? _h

/-- Why nothing can take the place of a directory's own point or double point. -/
def pointFault (from_ : Location) (directory : List (List Char)) : FileFault :=
  match t.locate from_ directory with
  | .ok (.folder _) => .busy
  | .ok (.file ..) => .notDirectory
  | .ok (.missing _) => .notFound
  | .error e => e

/-- Where a file that takes the place of a path comes to stand. -/
def target (p : List Char) : Except FileFault Location :=
  match (Path.parts p).reverse.dropWhile (· = []) with
  | ['.'] :: before => .error (t.pointFault (t.origin p) before.reverse)
  | ['.', '.'] :: before => .error (t.pointFault (t.origin p) before.reverse)
  | _ =>
    match t.place p with
    | .error e => .error e
    | .ok found =>
      if p.getLast? = some '/' then .error .notDirectory
      else match found with
        | .folder _ => .error .isDirectory
        | .file l _ | .missing l => .ok l

/-! ### Writing -/

def put (l : Location) (data : α) : Tree α := { t with files := store l data t.files }

def remove (l : Location) : Tree α := { t with files := t.files.filter (·.1 ≠ l) }

/-- A file takes the place of a path. -/
def rename (draft : Location) (p : List Char) : Except FileFault (Tree α) :=
  match t.files.lookup draft, t.target p with
  | none, _ => .error .notFound
  | some _, .error e => .error e
  | some data, .ok l => .ok ((t.remove draft).put l data)

/-- A temporary file is filled, brought to the disk, and takes the place of a path. Whatever has
been done before a failure stands. -/
def publish (d : Disk α) (draft : Location) (p : List Char) (data : α) :
    Tree α × Except FileFault Unit :=
  match d.refuses .fillDraft with
  | some e => (t, .error e)
  | none =>
    let t := t.put draft data
    match d.refuses .syncDraft with
    | some e => (t, .error e)
    | none =>
      match d.refuses .rename with
      | some e => (t, .error e)
      | none =>
        match t.rename draft p with
        | .error e => (t, .error e)
        | .ok t => (t, .ok ())

variable [Inhabited α]

/-- A temporary file in a directory, with nothing in it yet, and where it stands. Its name must be
free. -/
def createDraft (d : Disk α) (folder : List Char) : Except FileFault (Tree α × Location) :=
  match t.place folder with
  | .ok (.folder l) =>
    let draft := l ++ [d.draftName t l]
    match d.refuses .createDraft with
    | some e => .error e
    | none => if t.isTaken draft then .error .alreadyExists else .ok (t.put draft default, draft)
  | .ok (.file ..) => .error .notDirectory
  | .ok (.missing _) => .error .notFound
  | .error e => .error e

/-- A write. The temporary file is removed if it cannot take the place of the path. -/
def writeOn (d : Disk α) (p : List Char) (data : α) : Tree α × Except FileFault Unit :=
  match t.makeFolders d (Path.folder p) with
  | (t, .error e) => (t, .error e)
  | (t, .ok ()) =>
    match t.createDraft d (Path.folder p) with
    | .error e => (t, .error e)
    | .ok (t, draft) =>
      match t.publish d draft p data with
      | (t, .error e) => (t.remove draft, .error e)
      | (t, .ok ()) => (t, .ok ())

/-- A write on a disk that refuses nothing. -/
def write (p : List Char) (data : α) : Tree α × Except FileFault Unit := t.writeOn {} p data

/-- A working directory, where its name does not matter. -/
def home : Location := ["home", "work"]

/-- The tree of some files, with the directories they need. -/
def ofFiles (files : List (String × α)) (start : Location := home) : Tree α :=
  files.foldl (fun t f => (t.write f.1.toList f.2).1) { start }

/-- The path of a place, from the working directory if the place is below it. -/
def path (l : Location) : String :=
  if t.start.isPrefixOf l then "/".intercalate (l.drop t.start.length)
  else "/" ++ "/".intercalate l

/-- Every file with its path, in the order of the paths. -/
def toFiles : List (String × α) :=
  (t.files.map fun f => (t.path f.1, f.2)).mergeSort fun a b => decide (a.1 ≤ b.1)

end Tree
end Progression
