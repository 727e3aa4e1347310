import Progression.Number.Digits
import Progression.Job

/-!
Everything that can go wrong, by cause, and the one place where causes are put into words.
-/

namespace Progression

open Progression.Number (text)

/-- Why the file system refused. -/
inductive FileFault where
  | notFound | busy | alreadyExists | notDirectory | isDirectory | noSpace | nameTooLong
  | invalidName
  deriving DecidableEq, Repr

def FileFault.message : FileFault → String
  | notFound => "No such file or directory (os error 2)"
  | busy => "Device or resource busy (os error 16)"
  | alreadyExists => "File exists (os error 17)"
  | notDirectory => "Not a directory (os error 20)"
  | isDirectory => "Is a directory (os error 21)"
  | noSpace => "No space left on device (os error 28)"
  | nameTooLong => "File name too long (os error 36)"
  | invalidName => "file name contained an unexpected NUL byte"

/-- Why an exchange with the order runner failed. -/
inductive RemoteFault where
  /-- The address is not one that can be asked. -/
  | address (url : Option String)
  | transport (url : String)
  /-- The answer has a status outside the successes. -/
  | status (code : Nat) (url : String)
  /-- The body did not arrive or does not decode. -/
  | body
  deriving DecidableEq, Repr

/-- What a status outside the successes is called. -/
def RemoteFault.reason : Nat → String
  | 400 => "Bad Request" | 401 => "Unauthorized" | 402 => "Payment Required" | 403 => "Forbidden"
  | 404 => "Not Found" | 405 => "Method Not Allowed" | 406 => "Not Acceptable"
  | 407 => "Proxy Authentication Required" | 408 => "Request Timeout" | 409 => "Conflict"
  | 410 => "Gone" | 411 => "Length Required" | 412 => "Precondition Failed"
  | 413 => "Payload Too Large" | 414 => "URI Too Long" | 415 => "Unsupported Media Type"
  | 416 => "Range Not Satisfiable" | 417 => "Expectation Failed" | 418 => "I'm a teapot"
  | 421 => "Misdirected Request" | 422 => "Unprocessable Entity" | 423 => "Locked"
  | 424 => "Failed Dependency" | 425 => "Too Early" | 426 => "Upgrade Required"
  | 428 => "Precondition Required" | 429 => "Too Many Requests"
  | 431 => "Request Header Fields Too Large" | 451 => "Unavailable For Legal Reasons"
  | 500 => "Internal Server Error" | 501 => "Not Implemented" | 502 => "Bad Gateway"
  | 503 => "Service Unavailable" | 504 => "Gateway Timeout" | 505 => "HTTP Version Not Supported"
  | 506 => "Variant Also Negotiates" | 507 => "Insufficient Storage" | 508 => "Loop Detected"
  | 510 => "Not Extended" | 511 => "Network Authentication Required"
  | _ => "<unknown status code>"

def RemoteFault.message : RemoteFault → String
  | address none => "builder error"
  | address (some url) => "builder error for url (" ++ url ++ ")"
  | transport url => "error sending request for url (" ++ url ++ ")"
  | status code url =>
    (if code < 500 then "HTTP status client error (" else "HTTP status server error (")
      ++ text code ++ " " ++ reason code ++ ") for url (" ++ url ++ ")"
  | body => "error decoding response body"

/-- What can go wrong. -/
inductive Error where
  | parse (source : String) (line : Nat) (message : String)
  | undefinedEntity (name : String)
  | navigation (zone : ZoneId)
  | interactionTimeout (actor : ActorId) (objective : ObjectiveId)
  | order (item : ItemId) (amount : UInt32) (reason : String)
  | unlockStep (job step reason : String)
  | runner (reason : String)
  | classSwitch (job : String)
  | cancelled
  | invalidTables (reason : String)
  | unknownClass (name : String)
  | includeDepth (path : String) (depth limit : Nat)
  | file (fault : FileFault)
  /-- A text is not the YAML document expected. -/
  | yaml
  /-- A text is not the JSON document expected. -/
  | json
  | remote (fault : RemoteFault)
  deriving DecidableEq, Repr

namespace Error

def message : Error → String
  | parse source line m => "parse error in " ++ source ++ " at line " ++ text line ++ ": " ++ m
  | undefinedEntity name => "undefined entity '&" ++ name ++ ";'"
  | navigation zone => "navigation to zone " ++ text zone.toNat ++ " failed"
  | interactionTimeout actor objective =>
    "interaction with actor " ++ text actor.toNat ++ " for objective " ++ text objective.toNat
      ++ " timed out"
  | order item amount reason =>
    "order for item " ++ text item.toNat ++ " x" ++ text amount.toNat ++ " failed: " ++ reason
  | unlockStep job step reason =>
    "unlock of " ++ job ++ " failed at step '" ++ step ++ "': " ++ reason
  | runner reason => "order runner request rejected: " ++ reason
  | classSwitch job => "class change to " ++ job ++ " was not confirmed"
  | cancelled => "cancelled"
  | invalidTables reason => "invalid tables: " ++ reason
  | unknownClass name => "unknown class: " ++ name
  | includeDepth path depth limit =>
    "include depth " ++ text depth ++ " exceeds limit " ++ text limit ++ ": " ++ path
  | file fault => fault.message
  | yaml => "not a document of the expected form"
  | json => "not a document of the expected form"
  | remote fault => fault.message

/-- Whether an error means that the work was called off. -/
def isCancelled : Error → Bool
  | cancelled => true
  | _ => false

end Error

/-- Why work stops. -/
inductive Halt where
  | failed (error : Error)
  /-- A loop went through more rounds than it was given, and would go on. -/
  | endless
  deriving DecidableEq, Repr

def Job.read (s : String) : Except Error Job :=
  match Job.parse? s.toList with
  | some j => .ok j
  | none => .error (.unknownClass s)

end Progression
