import Progression.Json.Basic
import Progression.Json.Token

/-!
JSON values from tokens. The reader keeps the arrays and objects that are still open on a stack
and goes through the tokens once.
-/

namespace Progression.Json

/-- A container that is still open, its parts in reverse. -/
inductive Frame where
  | array (items : List Json)
  | object (fields : List (String × Json)) (name : String)

/-- What the reader expects next. -/
inductive Expect where
  | value
  /-- A value, or the end of the array just opened. -/
  | firstItem
  /-- A name, or the end of the object just opened. -/
  | firstName
  | name
  | colon (name : String)
  /-- A comma, or the end of the innermost container. -/
  | next

/-- The value of a token that is a value by itself. -/
def Token.plain? : Token → Option Json
  | null => some Json.null
  | true => some (Json.bool Bool.true)
  | false => some (Json.bool Bool.false)
  | string s => some (Json.string s)
  | number s => some (Json.number s)
  | _ => none

/-- A finished value put into the innermost container. -/
def Frame.add (v : Json) : Frame → Frame
  | array items => array (v :: items)
  | object fields name => object ((name, v) :: fields) name

/-- The rest of the tokens, with the containers that are open. The value read is the one that
leaves no container open. -/
def build? : List Token → Expect → List Frame → Option Json
  | [], _, _ => none
  | t :: ts, .value, fs => value? t ts fs
  | t :: ts, .firstItem, fs =>
    match t, fs with
    | .closeArray, .array items :: fs => done? (.array items.reverse) ts fs
    | t, fs => value? t ts fs
  | t :: ts, .firstName, fs =>
    match t, fs with
    | .closeObject, .object fields _ :: fs => done? (.object fields.reverse) ts fs
    | .string name, fs => build? ts (.colon name) fs
    | _, _ => none
  | t :: ts, .name, fs =>
    match t with
    | .string name => build? ts (.colon name) fs
    | _ => none
  | t :: ts, .colon name, fs =>
    match t, fs with
    | .colon, .object fields _ :: fs => build? ts .value (.object fields name :: fs)
    | _, _ => none
  | t :: ts, .next, fs =>
    match t, fs with
    | .comma, .array items :: fs => build? ts .value (.array items :: fs)
    | .comma, .object fields name :: fs => build? ts .name (.object fields name :: fs)
    | .closeArray, .array items :: fs => done? (.array items.reverse) ts fs
    | .closeObject, .object fields _ :: fs => done? (.object fields.reverse) ts fs
    | _, _ => none
where
  value? (t : Token) (ts : List Token) (fs : List Frame) : Option Json :=
    match t with
    | .openArray => build? ts .firstItem (.array [] :: fs)
    | .openObject => build? ts .firstName (.object [] "" :: fs)
    | t => match t.plain? with
      | some v => done? v ts fs
      | none => none
  done? (v : Json) (ts : List Token) (fs : List Frame) : Option Json :=
    match fs with
    | [] => if ts.isEmpty then some v else none
    | f :: fs => build? ts .next (f.add v :: fs)

def read? (s : String) : Option Json :=
  match Lexer.between.run? s.toList with
  | some ts => build? ts .value []
  | none => none

end Progression.Json
