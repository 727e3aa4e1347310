/-!
YAML documents as trees: scalars with the way they are written, sequences and mappings.
-/

namespace Progression

/-- How a scalar is written. -/
inductive Yaml.Style where
  | plain | single | double | literal | folded
  deriving DecidableEq, Repr, Inhabited

/-- A YAML node. Tags matter on scalars only. -/
inductive Yaml where
  | scalar (style : Yaml.Style) (tag : Option String) (text : String)
  | sequence (items : List Yaml)
  | mapping (entries : List (Yaml × Yaml))
  /-- A node seen from inside itself. -/
  | inner
  deriving Repr, Inhabited

namespace Yaml

def plain (text : String) : Yaml := .scalar .plain none text

/-- The node that stands where nothing is written. -/
def nothing : Yaml := plain ""

/-- The characters that end a line, once the other line ends have become line feeds. -/
def isBreak (c : Char) : Bool := c == '\n' || c == '\u2028' || c == '\u2029'

def isBlank (c : Char) : Bool := c == ' ' || c == '\t'

/-- Whether a text is at its end, at a blank or at the end of a line. -/
def atBlank : List Char → Bool
  | [] => true
  | c :: _ => isBlank c || isBreak c

/-- Letters, digits, underscores and hyphens, of which names are made. -/
def isNamePart (c : Char) : Bool := c.isAlphanum || c == '_' || c == '-'

/-- Whether a text begins with a mark between documents, `---` or `...`. -/
def atDocumentMark : List Char → Bool
  | '-' :: '-' :: '-' :: rest => atBlank rest
  | '.' :: '.' :: '.' :: rest => atBlank rest
  | _ => false

end Yaml
end Progression
