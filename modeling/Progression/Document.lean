import Progression.Job
import Progression.Position

/-!
Formats of documents, as they look to a writer: numbers, texts, lists and records with named
fields. A value is described once, and the same description serves every format.
-/

namespace Progression

/-- A format of documents. -/
class Document (α : Type) where
  number : Nat → α
  single : Single → α
  text : String → α
  nothing : α
  list : List α → α
  record : List (String × α) → α

namespace Document

variable {α : Type} [Document α]

/-- Numbers of single precision are written in positional notation up to thirteen digits before
the point and five zeros behind it, with an exponent beyond. -/
def spread : Number.Spread := ⟨13, -6⟩

def job (j : Job) : α := text j.name

def position (p : Position) : α := record [("x", single p.x), ("y", single p.y), ("z", single p.z)]

def optional {β : Type} (write : β → α) : Option β → α
  | some b => write b
  | none => nothing

end Document
end Progression
