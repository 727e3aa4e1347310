import Progression.Error
import Progression.Interaction.Basic
import Progression.Markup.Node
import Progression.Number.Literal
import Progression.Position

/-!
Steps of programs, and how elements spell them. Tags and names of attributes are read whatever
their case. An element whose attributes are faulty is a step too, one that can only fail.
-/

namespace Progression

open Progression.Text Progression.Number

/-- A step. -/
inductive Step where
  /-- The body is run if the condition holds. -/
  | branch (condition : String) (body : List Step)
  /-- The body is run as long as the condition holds. -/
  | loop (condition : String) (body : List Step)
  | craft (orders : String)
  | goTo (zone : ZoneId) (place : Position)
  | changeJob (job : Job)
  /-- A wait, in nanoseconds. -/
  | wait (length : Nat)
  | load (path : String)
  /-- An interaction; its timeout is in seconds. -/
  | interact (kind : Interaction) (actor : ActorId) (objective : ObjectiveId) (zone : ZoneId)
      (place : Position) (timeout : Option UInt64) (option : Option UInt32)
  | log (line : String)
  | name (text : String)
  | block (body : List Step)
  | unknown (tag : String) (line : Nat)
  | invalid (tag : String) (line : Nat) (reason : String)
  deriving Repr, Inhabited

namespace Step

def tag : Step → String
  | branch .. => "If"
  | loop .. => "While"
  | craft _ => "Craft"
  | goTo .. => "GoTo"
  | changeJob _ => "ChangeClass"
  | wait _ => "Wait"
  | load _ => "LoadProfile"
  | interact .acquire .. => "PickupQuest"
  | interact .deliver .. => "TurnIn"
  | interact .dialog .. => "TalkTo"
  | log _ => "Log"
  | name _ => "Name"
  | block _ => "Block"
  | unknown tag _ => tag
  | invalid tag .. => tag

end Step

/-! ### Durations -/

/-- How many nanoseconds there are in a second. -/
def nanosPerSecond : Nat := 1000000000

/-- Why a number of seconds is no duration. -/
inductive DurationFault where
  | negative
  | outOfRange
  deriving DecidableEq, Repr

/-- The words for a number that is no duration. -/
def DurationFault.message : DurationFault → String
  | negative => "cannot convert float seconds to Duration: value is negative"
  | outOfRange => "cannot convert float seconds to Duration: value is either too big or NaN"

/-- The nanoseconds in a number of seconds of double precision, a half going to the even
neighbour. -/
def nanosOfSeconds (bits : Nat) : Except DurationFault Nat :=
  let m := double.magnitude bits
  if double.isNan bits then .error .outOfRange
  else if double.isNegative bits && m ≠ 0 then .error .negative
  else
    let d := double.unpack m
    if UInt64.size * d.den ≤ d.num || m = double.infinity then .error .outOfRange
    else .ok (roundDiv (d.num * nanosPerSecond) d.den)

/-- The milliseconds that cover a number of nanoseconds. -/
def millisOfNanos (n : Nat) : Nat := (n + 999999) / 1000000

/-! ### Attributes -/

namespace Markup.Node

variable (n : Node)

def required (key : String) : Except String String :=
  match n.attribute? key with
  | some v => .ok v
  | none => .error ("missing attribute '" ++ key ++ "'")

/-- A number in an attribute that must be there. Blanks around it do not count. -/
def number {α : Type} (read : List Char → Option α) (key : String) : Except String α := do
  let raw ← n.required key
  match read (trim raw.toList) with
  | some v => return v
  | none => throw ("attribute '" ++ key ++ "' is not a number: '" ++ raw ++ "'")

/-- A number in an attribute that may be missing. -/
def number? {α : Type} (read : List Char → Option α) (key : String) : Except String (Option α) :=
  match n.attribute? key with
  | some _ => (n.number read key).map some
  | none => .ok none

def place : Except String Position := do
  let raw ← n.required "Location"
  match Position.read raw with
  | .ok p => return p
  | .error e => throw e.message

end Markup.Node

/-! ### Steps from elements -/

namespace Step

open Markup (Node)

/-- A number of double precision. -/
def double? (s : List Char) : Option Nat := (Literal.read? s).map double.ofLiteral

/-- How long a wait is: milliseconds if they are given, else seconds. -/
def waitOf (n : Node) : Except String Nat := do
  match ← n.number? (word64? 10) "Milliseconds" with
  | some ms => return ms.toNat * 1000000
  | none =>
    match ← n.number? double? "Seconds" with
    | some secs =>
      match nanosOfSeconds secs with
      | .ok nanos => return nanos
      | .error e => throw ("invalid wait of " ++ double.positional secs ++ " seconds: " ++ e.message)
    | none => throw "Wait needs 'Seconds' or 'Milliseconds'"

def interactionOf (n : Node) (kind : Interaction) : Except String Step := do
  let actor ← n.number (word32? 10) "ActorId"
  let objective ← n.number? (word32? 10) "ObjectiveId"
  let zone ← n.number (word32? 10) "ZoneId"
  let place ← n.place
  let timeout ← n.number? (word64? 10) "Timeout"
  let option ← n.number? (word32? 10) "Option"
  return .interact kind actor (objective.getD 0) zone place timeout option

/-- The tags of steps that only group other steps. -/
def blockTags : List String := ["profile", "order", "steps", "sequence"]

/-- The step that an element spells, given the steps of its children. -/
def build (n : Node) (body : List Step) : Except String Step :=
  match String.ofList (lower n.tag.toList) with
  | "if" => do return .branch (← n.required "Condition") body
  | "while" => do return .loop (← n.required "Condition") body
  | "craft" =>
    match n.attribute? "Json" with
    | some orders => .ok (.craft orders)
    | none => if n.text = "" then .error "missing attribute 'Json'" else .ok (.craft n.text)
  | "goto" => do
    let zone ← n.number (word32? 10) "ZoneId"
    return .goTo zone (← n.place)
  | "changeclass" => do
    match Job.read (← n.required "Class") with
    | .ok job => return .changeJob job
    | .error e => throw e.message
  | "wait" => do return .wait (← waitOf n)
  | "loadprofile" => do return .load (← n.required "Path")
  | "talkto" => interactionOf n .dialog
  | "pickupquest" => interactionOf n .acquire
  | "turnin" => interactionOf n .deliver
  | "log" => .ok (.log ((n.attribute? "Message").getD n.text))
  | "name" => .ok (.name n.text)
  | tag => if tag ∈ blockTags then .ok (.block body) else .ok (.unknown n.tag n.line)

mutual

def ofNode : Node → Step
  | ⟨tag, attributes, text, children, line⟩ =>
    match build ⟨tag, attributes, text, children, line⟩ (ofNodes children) with
    | .ok step => step
    | .error reason => .invalid tag line reason

def ofNodes : List Node → List Step
  | [] => []
  | n :: ns => ofNode n :: ofNodes ns

end

end Step
end Progression
