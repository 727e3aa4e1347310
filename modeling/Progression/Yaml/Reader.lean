import Progression.Yaml.Scanner

/-!
Nodes from YAML tokens. A node that is not written is the empty plain scalar. An alias stands for
the node that its anchor names at that moment.
-/

namespace Progression.Yaml

/-- The nodes read so far that have names. A name stands for a number and the number for a node;
a new name gets the count of the names as its number. -/
structure Anchors where
  numbers : List (String × Nat) := []
  nodes : List (Nat × Yaml) := []

namespace Anchors

variable (a : Anchors)

def find? (name : String) : Option Yaml :=
  (a.numbers.lookup name).bind fun n => a.nodes.lookup n

/-- A name given to a node that is about to be read, and its number. -/
def announce (name : String) : Nat × Anchors :=
  let n := a.numbers.length
  (n, { numbers := (name, n) :: a.numbers.filter (·.1 ≠ name), nodes := (n, .inner) :: a.nodes })

/-- A number given to a node that has been read. -/
def settle (n : Nat) (node : Yaml) : Anchors := { a with nodes := (n, node) :: a.nodes }

end Anchors

/-- The reader: the tokens that are left, the names, and what the handles of tags stand for. -/
structure Reader where
  tokens : List Token
  anchors : Anchors := {}
  handles : List (String × String) := []

/-- Reading something. -/
abbrev Reading := StateT Reader Option

namespace Reading

/-- The next token, left where it is. -/
def peek : Reading (Option Token) := return (← get).tokens.head?

def skip : Reading Unit := modify fun r => { r with tokens := r.tokens.drop 1 }

/-- Whether the next token is one of several. -/
def isOneOf (ts : List Token) : Reading Bool := do
  match ← peek with
  | some t => return ts.contains t
  | none => return false

/-- Passes over a token if it is the next one. The answer says whether it was. -/
def skipIf (t : Token) : Reading Bool := do
  if ← isOneOf [t] then
    skip
    return true
  return false

def refuse {α : Type} : Reading α := StateT.lift none

/-! ### Names and tags before a node -/

/-- What a tag stands for in full; the tag that says nothing is none. -/
def fullTag (handle suffix : String) : Reading (Option String) := do
  if handle = "" then return if suffix = "!" then none else some suffix
  match (← get).handles.lookup handle with
  | some lead => return some (lead ++ suffix)
  | none =>
    if handle = "!" then return some ("!" ++ suffix)
    else if handle = "!!" then return some ("tag:yaml.org,2002:" ++ suffix)
    else refuse

def anchor? : Reading (Option String) := do
  match ← peek with
  | some (.anchor name) =>
    skip
    return some name
  | _ => return none

/-- The tag in front of a node: whether there is one, and what it stands for. -/
def tag? : Reading (Bool × Option String) := do
  match ← peek with
  | some (.tag handle suffix) =>
    skip
    return (true, ← fullTag handle suffix)
  | _ => return (false, none)

/-- A number for the node that a name is given to. -/
def announce : Option String → Reading (Option Nat)
  | none => return none
  | some name => do
    let r ← get
    let (n, anchors) := r.anchors.announce name
    set { r with anchors }
    return some n

/-- The node, kept under its number. -/
def settle (n : Option Nat) (node : Yaml) : Reading Yaml := do
  if let some n := n then modify fun r => { r with anchors := r.anchors.settle n node }
  return node

/-! ### Nodes -/

mutual

/-- A node. Blocks can stand in it only if they can stand around it, and a sequence at the column
of its parent only as the value of a mapping. -/
def node (fuel : Nat) (block compact : Bool) : Reading Yaml :=
  match fuel with
  | 0 => refuse
  | n + 1 => do
    if let some (.alias name) ← peek then
      skip
      match (← get).anchors.find? name with
      | some target => return target
      | none => refuse
    let first ← anchor?
    let (tagged, tag) ← tag?
    let name ← if first.isSome then pure first else anchor?
    let number ← announce name
    settle number (← content n block compact (name.isSome || tagged) tag)

/-- A node after its name and its tag. -/
def content (fuel : Nat) (block compact marked : Bool) (tag : Option String) : Reading Yaml :=
  match fuel with
  | 0 => refuse
  | n + 1 => do
    match ← peek with
    | some (.scalar style text) =>
      skip
      return .scalar style tag text
    | some .flowSequence =>
      skip
      return .sequence (← flowItems n true)
    | some .flowMapping =>
      skip
      return .mapping (← flowEntries n true)
    | some .blockSequence =>
      if !block then refuse
      skip
      return .sequence (← blockItems n)
    | some .blockMapping =>
      if !block then refuse
      skip
      return .mapping (← blockEntries n)
    | some .blockEntry =>
      if compact then return .sequence (← compactItems n)
      else if marked then return .scalar .plain tag ""
      else refuse
    | _ => if marked then return .scalar .plain tag "" else refuse

/-- A node, or nothing before one of several tokens. -/
def nodeUnless (fuel : Nat) (stops : List Token) (block compact : Bool) : Reading Yaml :=
  match fuel with
  | 0 => refuse
  | n + 1 => do
    if ← isOneOf stops then return nothing
    node n block compact

def blockItems (fuel : Nat) : Reading (List Yaml) :=
  match fuel with
  | 0 => refuse
  | n + 1 => do
    if ← skipIf .blockEnd then return []
    if !(← skipIf .blockEntry) then refuse
    let item ← nodeUnless n [.blockEntry, .blockEnd] true false
    return item :: (← blockItems n)

/-- The items of a sequence at the column of its parent. -/
def compactItems (fuel : Nat) : Reading (List Yaml) :=
  match fuel with
  | 0 => refuse
  | n + 1 => do
    if !(← skipIf .blockEntry) then return []
    let item ← nodeUnless n [.blockEntry, .key, .value, .blockEnd] true false
    return item :: (← compactItems n)

def blockEntries (fuel : Nat) : Reading (List (Yaml × Yaml)) :=
  match fuel with
  | 0 => refuse
  | n + 1 => do
    if ← skipIf .blockEnd then return []
    let stops := [Token.key, .value, .blockEnd]
    if !(← skipIf .key) then refuse
    let key ← nodeUnless n stops true true
    let value ← if ← skipIf .value then nodeUnless n stops true true else pure nothing
    return (key, value) :: (← blockEntries n)

def flowItems (fuel : Nat) (first : Bool) : Reading (List Yaml) :=
  match fuel with
  | 0 => refuse
  | n + 1 => do
    if ← skipIf .flowSequenceEnd then return []
    if !first then
      if !(← skipIf .flowEntry) then refuse
      if ← skipIf .flowSequenceEnd then return []
    let item ← if ← skipIf .key then flowPair n else node n false false
    return item :: (← flowItems n false)

/-- A single pair that is an item of a sequence in brackets. -/
def flowPair (fuel : Nat) : Reading Yaml :=
  match fuel with
  | 0 => refuse
  | n + 1 => do
    let key ←
      if ← isOneOf [.value, .flowEntry, .flowSequenceEnd] then do
        skip
        pure nothing
      else node n false false
    let value ←
      if ← skipIf .value then nodeUnless n [.flowEntry, .flowSequenceEnd] false false
      else pure nothing
    return .mapping [(key, value)]

def flowEntries (fuel : Nat) (first : Bool) : Reading (List (Yaml × Yaml)) :=
  match fuel with
  | 0 => refuse
  | n + 1 => do
    if ← skipIf .flowMappingEnd then return []
    if !first then
      if !(← skipIf .flowEntry) then refuse
      if ← skipIf .flowMappingEnd then return []
    let entry ←
      if ← skipIf .key then do
        let key ← nodeUnless n [.value, .flowEntry, .flowMappingEnd] false false
        let value ←
          if ← skipIf .value then nodeUnless n [.flowEntry, .flowMappingEnd] false false
          else pure nothing
        pure (key, value)
      else pure (← node n false false, nothing)
    return entry :: (← flowEntries n false)

end

/-! ### Documents -/

/-- The directives in front of a document: a version at most once, and one that is known, and each
handle at most once. -/
def directives (fuel : Nat) (versioned : Bool) : Reading Unit :=
  match fuel with
  | 0 => refuse
  | n + 1 => do
    match ← peek with
    | some (.version major minor) =>
      if versioned || major ≠ 1 || (minor ≠ 1 && minor ≠ 2) then refuse
      skip
      directives n true
    | some (.tagHandle handle lead) =>
      if ((← get).handles.lookup handle).isSome then refuse
      modify fun r => { r with handles := (handle, lead) :: r.handles }
      skip
      directives n versioned
    | _ => return ()

/-- Whether a token belongs to no document or begins one. -/
def isOutside : Option Token → Bool
  | none => true
  | some (.version ..) => true
  | some (.tagHandle ..) => true
  | some .documentStart => true
  | some .documentEnd => true
  | _ => false

def skipEnds (fuel : Nat) : Reading Unit :=
  match fuel with
  | 0 => return ()
  | n + 1 => do if ← skipIf .documentEnd then skipEnds n

def document (fuel : Nat) : Reading Yaml := do
  match ← peek with
  | none => return nothing
  | some .documentEnd => refuse
  | t =>
    let root ←
      if isOutside t then do
        directives fuel false
        if !(← skipIf .documentStart) then refuse
        if isOutside (← peek) then pure nothing else node fuel true false
      else node fuel true false
    skipEnds fuel
    if (← peek).isSome then refuse
    return root

end Reading

/-- The document that a text spells. Every call below takes a token or follows one that did, which
bounds their depth. -/
def read? (text : String) : Option Yaml := do
  let tokens ← tokens? text
  let (root, _) ← (Reading.document (4 * tokens.length + 4)).run { tokens }
  return root

end Progression.Yaml
