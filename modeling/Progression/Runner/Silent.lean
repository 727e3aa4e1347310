import Progression.Number.Digits
import Progression.Runner.Client
import Progression.Text.Blank
import Progression.Text.Search

/-!
The remote of a program that opens no connection. No request reaches it, but the program names the
addresses that it asks, and so it has to read them. It knows plain ones only: a host of letters,
digits, hyphens and dots, a port, and a path of such characters. Any other address of the web counts
as one that cannot be asked.
-/

namespace Progression.Runner.Remote

open Progression.Text

def isPlain (c : Char) : Bool := c.isAlphanum || c = '-' || c = '.'

/-- A host in lower case. If its last part begins with a digit, it is four numbers of a byte each. -/
def plainHost? (s : List Char) : Option (List Char) :=
  let labels := divide '.' s
  let isByte (label : List Char) : Bool :=
    match Number.digits? 10 label with
    | some n => n < 256 && (Number.text n).toList = label
    | none => false
  let isNumeric := (labels.getLast?.bind List.head?).any Char.isDigit
  if s.isEmpty || !s.all isPlain then none
  else if isNumeric && !(labels.length = 4 && labels.all isByte) then none
  else some (lower s)

/-- A port and the colon before it, without one that the scheme implies. -/
def plainPort? (implied : Nat) : List Char → Option (List Char)
  | [] => some []
  | _ :: s =>
    match Number.digits? 10 s with
    | some n =>
      if 65535 < n then none
      else if n = implied then some []
      else some (':' :: (Number.text n).toList)
    | none => none

def isPlainPath (s : List Char) : Bool :=
  s.head? = some '/' && s.all (fun c => isPlain c || c = '/' || c = '_') &&
    (divide '/' s).all fun part => part ≠ ['.'] && part ≠ ['.', '.']

/-- A plain address, with its scheme and its host in lower case. -/
def locatePlain (address : String) : Except RemoteFault String :=
  let scheme := address.toList.takeWhile (· ≠ ':')
  let after := address.toList.drop scheme.length
  if !(scheme.head?.any Char.isAlpha && scheme.all isPlain && after.head? = some ':') then
    .error (.address none)
  else
    let implied? : Option Nat :=
      if lower scheme = "http".toList then some 80
      else if lower scheme = "https".toList then some 443
      else none
    match implied?, after with
    | some implied, ':' :: '/' :: '/' :: rest =>
      let authority := rest.takeWhile (· ≠ '/')
      let name := authority.takeWhile (· ≠ ':')
      let path := rest.drop authority.length
      match plainHost? name, plainPort? implied (authority.drop name.length), isPlainPath path with
      | some host, some port, true =>
        .ok (String.ofList (lower scheme ++ "://".toList ++ host ++ port ++ path))
      | _, _, _ => .error (.address none)
    | some _, _ => .error (.address none)
    | none, _ => .error (.address (some (String.ofList (lower scheme ++ after))))

def silent : Remote Unit where
  locate := locatePlain
  exchange _ _ := (none, ())
  pause _ _ := ()

end Progression.Runner.Remote
