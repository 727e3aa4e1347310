import Progression.Text.Search

/-!
Trees of elements.
-/

namespace Progression.Markup

open Progression.Text

/-- An element. -/
structure Node where
  tag : String
  /-- Names and values, in the order of the names; no name stands twice. -/
  attributes : List (String × String) := []
  /-- The character data directly inside the element, put together. -/
  text : String := ""
  children : List Node := []
  /-- The line of the opening tag; the first line is 1. -/
  line : Nat
  deriving Repr, Inhabited

namespace Node

variable (n : Node)

/-- The value of an attribute, whatever the case of its name; of several, the first in order. -/
def attribute? (name : String) : Option String :=
  (n.attributes.find? fun a => sameWord a.1 name).map (·.2)

/-- Whether an element has a tag, whatever its case. -/
def is (tag : String) : Bool := sameWord n.tag tag

end Node

/-- Attributes with one more, in the order of the names; none if the name is there already. -/
def insertAttribute? (name value : String) : List (String × String) → Option (List (String × String))
  | [] => some [(name, value)]
  | a :: as =>
    if a.1 = name then none
    else if name < a.1 then some ((name, value) :: a :: as)
    else (insertAttribute? name value as).map (a :: ·)

end Progression.Markup
