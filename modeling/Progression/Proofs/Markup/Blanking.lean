import Progression.Proofs.Markup.Annotation

/-!
Where a block ends. Between its brackets stand blanks, declarations and comments in any order and
number, and quoted values and comments may hold every character that means something on the way to
the end: quotes, brackets, `>` and the opening of a comment. Each piece is passed by itself
(`InnerForm.passed`), so the block is blanked out, and nothing before or behind it.
-/

namespace Progression.Markup

open Progression.Text

/-- What stands between the brackets of a block. -/
inductive InnerForm : List Char → Prop
  | nil : InnerForm []
  | blank {c : Char} {s : List Char} : isBlank c = true → InnerForm s → InnerForm (c :: s)
  | declaration {d s : List Char} : DeclarationForm d → InnerForm s → InnerForm (d ++ s)
  | comment {body s : List Char} : ¬ "-->".toList <:+: body → InnerForm s →
    InnerForm (("<!--".toList ++ (body ++ "-->".toList)) ++ s)

/-- A block with brackets. -/
inductive BlockForm : List Char → Prop
  | mk {w head inner p : List Char} : IsOpening w → HeadingText head → InnerForm inner → Pad p →
    BlockForm (w ++ (head ++ '[' :: (inner ++ ']' :: (p ++ ['>']))))

theorem InnerForm.passed {s : List Char} (h : InnerForm s) : Passed true s true := by
  induction h with
  | nil => exact .nil
  | blank hc _ ih =>
    exact .append (s := [_]) (.plain (by simpa using not_mem_marks_of_isBlank hc)) ih
  | declaration hd _ ih => exact hd.passed.append ih
  | comment hbody _ ih => exact (Passed.comment hbody).append ih

/-- **The first block of a text is found exactly**: it is replaced by its line breaks, and what
stands before and behind it stays. -/
theorem stripBlock_of_blockForm {before block : List Char} (hs : NoBlock before)
    (hb : BlockForm block) (after : List Char) (source : String) :
    stripBlock source (before ++ (block ++ after)) =
      .ok (before ++ List.replicate (block.count '\n') '\n' ++ after, declarations block) := by
  cases hb with
  | mk hw hh hi hp =>
    exact stripBlock_block hs ⟨_, _, rfl, hw⟩ (blockEnd?_of_passed hw hh hp hi.passed after) source

/-- Whether a block opens in a text is what the search for it says. -/
theorem noBlock_iff {s : List Char} : NoBlock s ↔ beforeBlock? s = none := by
  refine ⟨NoBlock.beforeBlock?, fun h => ?_⟩
  induction s with
  | nil => exact .nil
  | cons c s ih =>
    rw [beforeBlock?] at h
    split at h
    · cases h
    · next hnone =>
      intro w hw hi
      rcases List.infix_cons_iff.1 hi with ⟨t, ht⟩ | hi
      · rw [← ht, afterWord?_append hw] at hnone
        exact hnone rfl
      · exact ih (Option.map_eq_none_iff.1 h) w hw hi

/-- A block in which quoted texts and a comment hold quotes, brackets and the opening of a comment,
behind a text that opens no block. -/
theorem stripBlock_of_blockForm_marks :
    let before := "<!DOC<!--".toList
    let block := "<!DocType P \"[>\" '\"' [\n<!ENTITY é:1 \"]>'<!--\"> <!-- don't ]>\"\n -->]\n>".toList
    let after := "<P/>]>".toList
    (NoBlock before ∧ BlockForm block) ∧ stripBlock "test" (before ++ (block ++ after)) =
      .ok (before ++ ['\n', '\n', '\n'] ++ after, declarations block) := by
  intro before block after
  have hbefore : NoBlock before := noBlock_iff.2 (by decide +kernel)
  have hhead : HeadingText (" P \"[>\"".toList ++ " '\"' ".toList) :=
    .char (by decide) (.char (by decide) (.char (by decide)
      (.quoted (v := "[>".toList) (.inl rfl) (by decide) (.char (by decide)
        (.quoted (v := ['"']) (.inr rfl) (by decide) (.char (by decide) .nil))))))
  have hpad : Pad " ".toList ∧ Pad "\n".toList := by unfold Pad; decide
  have hdeclaration : DeclarationForm ("<!ENTITY".toList ++ (" ".toList ++ ("é:1".toList ++
      (" ".toList ++ '"' :: ("]>'<!--".toList ++ '"' :: ([] ++ ['>'])))))) :=
    .mk (by decide) hpad.1 hpad.1 (.inl rfl) (by decide) .nil
  have hbody : ¬ "-->".toList <:+: " don't ]>\"\n ".toList := by decide +kernel
  have hinner := InnerForm.blank (c := '\n') (by decide)
    (.declaration hdeclaration (.blank (c := ' ') (by decide) (.comment hbody .nil)))
  have hform := BlockForm.mk (w := "<!DocType".toList) (by unfold IsOpening; decide) hhead hinner
    hpad.2
  obtain ⟨b, hb, hform⟩ : ∃ b, b = block ∧ BlockForm b := ⟨_, by decide +kernel, hform⟩
  have hblock : BlockForm block := hb ▸ hform
  have hcount : block.count '\n' = 3 := by decide
  have hstrip := stripBlock_of_blockForm hbefore hblock after "test"
  rw [hcount] at hstrip
  exact ⟨⟨hbefore, hblock⟩, hstrip⟩

end Progression.Markup
