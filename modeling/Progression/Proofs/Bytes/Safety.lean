import Progression.Proofs.Bytes.Condition
import Progression.Proofs.Bytes.Markup

/-!
Reading over bytes always ends, and never cuts a text off the boundary of a character or looks
behind its end: where the bytes are fewer than the depth of parentheses can count, there is an
answer, and it is the one that is read from the characters.
-/

namespace Progression.Bytes

open Progression.Text

/-- **No text is read out of its bounds.** Conditions, entities, references and markup, read over
the bytes of a text, have the answers that are read from its characters. -/
theorem read_within_bounds {s : String} (hs : s.utf8ByteSize < 2 ^ 31) (source : String) :
    parse s = some (Condition.parse s) ∧
      (expand source s.toList).run = some (Markup.expand source s.toList) ∧
      decode s.toList = some (Markup.decode s.toList) ∧
      read source s.toList = some (Markup.read source s.toList) := by
  refine ⟨parse_eq ?_, expand_eq source _, decode_eq _, read_eq source _⟩
  rwa [size_toList]

/-- Characters of two, three and four bytes next to everything that is looked for. -/
theorem read_within_bounds_wide :
    let s := "<!DOCTYPE é [<!ENTITY ü '€'>]>\n<é>(é) OR not (€ 😀) &#x1F600;&😀;</é>"
    s.utf8ByteSize < 2 ^ 31 ∧
      parse s = some (Condition.parse s) ∧
      (expand "test" s.toList).run = some (Markup.expand "test" s.toList) ∧
      decode s.toList = some (Markup.decode s.toList) ∧
      read "test" s.toList = some (Markup.read "test" s.toList) := by
  intro s
  have hs : s.utf8ByteSize < 2 ^ 31 := by decide +kernel
  exact ⟨hs, read_within_bounds hs "test"⟩

end Progression.Bytes
