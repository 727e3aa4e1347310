import Progression.Error
import Progression.Json.Reader
import Progression.Json.Record

/-!
What the order runner says about itself, and how it answers commands.
-/

namespace Progression.Runner

open Progression

/-- The state of the runner. -/
structure State where
  state : String := ""
  isExecuting : Bool := false
  hasPendingOrder : Bool := false
  hasIncompleteOrders : Bool := false
  currentFile : String := ""
  apiStatus : String := ""
  botRunning : Bool := false
  characterName : String := ""
  worldName : String := ""
  runtimeSeconds : UInt64 := 0
  deriving DecidableEq, Repr, Inhabited

namespace State

/-- Whether the runner has an order to work on. -/
def isBusy (s : State) : Bool := s.isExecuting || s.hasPendingOrder

def fieldNames : List String :=
  ["state", "isExecuting", "hasPendingOrder", "hasIncompleteOrders", "currentFile", "apiStatus",
    "botRunning", "characterName", "worldName", "runtimeSeconds"]

def toJson (s : State) : Json :=
  .object (fieldNames.zip
    [.string s.state, .bool s.isExecuting, .bool s.hasPendingOrder, .bool s.hasIncompleteOrders,
      .string s.currentFile, .string s.apiStatus, .bool s.botRunning, .string s.characterName,
      .string s.worldName, .ofNat s.runtimeSeconds.toNat])

/-- The state that a JSON value gives. Every field may be missing; none may be given twice. -/
def ofJson? (v : Json) : Option State := do
  if !v.isUnambiguous fieldNames then none
  match ← v.record? fieldNames with
  | [state, executing, pending, incomplete, file, api, bot, character, world, runtime] =>
    let text := Json.optional "" Json.string?
    let flag := Json.optional false Json.bool?
    return {
      state := ← text state
      isExecuting := ← flag executing
      hasPendingOrder := ← flag pending
      hasIncompleteOrders := ← flag incomplete
      currentFile := ← text file
      apiStatus := ← text api
      botRunning := ← flag bot
      characterName := ← text character
      worldName := ← text world
      runtimeSeconds := ← Json.optional 0 Json.word64? runtime }
  | _ => none

def read (s : String) : Except Error State :=
  match (Json.read? s).bind ofJson? with
  | some state => .ok state
  | none => .error .json

end State

/-- The answer to a command. -/
structure Response where
  success : Bool := false
  message : Option String := none
  error : Option String := none
  deriving DecidableEq, Repr, Inhabited

namespace Response

/-- What the answer says: its message, or else its error. -/
def text (r : Response) : String := (r.message <|> r.error).getD "Unknown response"

def fieldNames : List String := ["success", "message", "error"]

def textOrNull : Option String → Json
  | some s => .string s
  | none => .null

def toJson (r : Response) : Json :=
  .object (fieldNames.zip [.bool r.success, textOrNull r.message, textOrNull r.error])

/-- The answer that a JSON value gives. Every field may be missing; none may be given twice. -/
def ofJson? (v : Json) : Option Response := do
  if !v.isUnambiguous fieldNames then none
  match ← v.record? fieldNames with
  | [success, message, error] =>
    let text := Json.optional none (Json.nullable Json.string?)
    return {
      success := ← Json.optional false Json.bool? success
      message := ← text message
      error := ← text error }
  | _ => none

def read (s : String) : Except Error Response :=
  match (Json.read? s).bind ofJson? with
  | some response => .ok response
  | none => .error .json

end Response
end Progression.Runner
