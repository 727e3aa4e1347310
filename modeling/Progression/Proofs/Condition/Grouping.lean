import Progression.Cli.Plan
import Progression.Proofs.Condition.Writing

/-!
Connectives between texts in parentheses. Whatever a text says, if its parentheses are balanced
then its meaning stays its own when it is put in parentheses and joined: `unescape` works on both
sides of a parenthesis apart, and no connective is seen inside of a group. `ofText_negation`,
`ofText_joined_and` and `ofText_joined_or` say what is read, and the values and the unknown words
follow.
-/

namespace Progression.Condition

open Progression.Text

/-! ### Escapes and parentheses -/

/-- No escape goes across a parenthesis. -/
theorem unescape_separate {c : Char} (hc : c = '(' ∨ c = ')') (s t : List Char) :
    unescape (s ++ c :: t) = unescape s ++ c :: unescape t := by
  have hl : c ∉ "&lt;".toList := by rcases hc with rfl | rfl <;> decide
  have hg : c ∉ "&gt;".toList := by rcases hc with rfl | rfl <;> decide
  have ha : c ∉ "&amp;".toList := by rcases hc with rfl | rfl <;> decide
  unfold unescape
  rw [replace_separate (by decide) hl, replace_separate (by decide) hg,
    replace_separate (by decide) ha]

theorem unescape_nil : unescape [] = [] := unescape_eq_self (by simp)

/-- An escaped text between parentheses is undone by itself. -/
theorem unescape_group {s r : List Char} (hs : '&' ∉ s) (t : List Char) :
    unescape (s ++ '(' :: (t ++ ')' :: r)) = s ++ '(' :: (unescape t ++ ')' :: unescape r) := by
  rw [unescape_separate (.inl rfl), unescape_separate (.inr rfl), unescape_eq_self hs]

theorem depth?_replace {mark other : List Char} (hne : mark ≠ [])
    (hm : ∀ c ∈ mark, c ≠ '(' ∧ c ≠ ')') (ho : ∀ c ∈ other, c ≠ '(' ∧ c ≠ ')') (d : Nat)
    (s : List Char) : depth? d (replace mark other s) = depth? d s := by
  induction s using replace_induction hne generalizing d with
  | nil => rw [replace_nil hne]
  | mark_append s ih =>
    rw [replace_append hne, depth?_append, depth?_append, depth?_of_plain hm, depth?_of_plain ho,
      Option.bind_some, Option.bind_some, ih]
  | cons c s hc ih =>
    rw [replace_cons hne hc]
    simp only [depth?, ih]

theorem Balanced.unescape {t : List Char} (h : Balanced t) : Balanced (unescape t) := by
  unfold Balanced Condition.unescape
  rw [depth?_replace (by decide) (by decide) (by decide),
    depth?_replace (by decide) (by decide) (by decide),
    depth?_replace (by decide) (by decide) (by decide)]
  exact h

theorem parse_eq_ofText (s : String) : parse s = ofText (unescape s.toList) :=
  ofText_congr (trim_trim _)

/-! ### Groups, joined -/

/-- A text in parentheses behind the word that negates it. -/
def negation (t : List Char) : List Char := "not".toList ++ ([' '] ++ '(' :: (t ++ [')']))

/-- Two texts in parentheses with a word between them. -/
def joined (word t u : List Char) : List Char :=
  '(' :: (t ++ [')']) ++ ([' '] ++ (word ++ ([' '] ++ '(' :: (u ++ [')']))))

theorem unescape_negation (t : List Char) : unescape (negation t) = negation (unescape t) := by
  have h : unescape ("not ".toList ++ '(' :: (t ++ [')'])) =
      "not ".toList ++ '(' :: (unescape t ++ ')' :: unescape []) :=
    unescape_group (by decide) t
  rwa [unescape_nil] at h

theorem unescape_joined {word : List Char} (hk : Keyword word) (t u : List Char) :
    unescape (joined word t u) = joined word (unescape t) (unescape u) := by
  have hamp : '&' ∉ [' '] ++ (word ++ [' ']) := by rcases hk with rfl | rfl <;> decide
  have hu : unescape ([' '] ++ (word ++ [' ']) ++ '(' :: (u ++ [')'])) =
      [' '] ++ (word ++ [' ']) ++ '(' :: (unescape u ++ ')' :: unescape []) :=
    unescape_group hamp u
  have ht : unescape ([] ++ '(' :: (t ++ ')' :: ([' '] ++ (word ++ [' ']) ++ '(' :: (u ++ [')'])))) =
      [] ++ '(' :: (unescape t ++ ')' :: _) := unescape_group (by simp) t
  rw [hu, unescape_nil] at ht
  simpa [joined] using ht

section Groups

variable {t u : List Char} (ht : Balanced t) (hu : Balanced u)

theorem edged_joined (word t u : List Char) : Edged (joined word t u) := by
  have h := (edged_group t).append (edged_group u) ([' '] ++ (word ++ [' ']))
  simpa only [joined, List.append_assoc] using h

include ht

/-- A negated group is the negation of what the group says. -/
theorem ofText_negation : ofText (negation t) = .not (ofText t) := by
  have hw : sameLetters "not".toList "not".toList = true := beq_self_eq_true _
  have he := edged_group t
  have hf : ∀ word, Keyword word → Free word 0 (negation t) := fun word hk =>
    .negate hk hw gap_space.pad he (Inert.of_head (by decide) _ word hk) (.group ht)
  have hedged : Edged (negation t) :=
    (edged_of_solid (t := "not".toList) (by decide) (by decide)).append he [' ']
  rw [ofText_of_free hedged hf, negation, negated?_gap hw gap_space he]
  exact congrArg _ (ofText_group ht)

include hu

/-- Two groups with a keyword between them are what the text is taken apart into. -/
theorem split_joined {word : List Char} (hk : Keyword word) :
    split word (joined word t u) = ['(' :: (t ++ [')']), '(' :: (u ++ [')'])] := by
  have hw : sameLetters word word = true := beq_self_eq_true _
  have htwo := split_append hk (.group ht) (edged_group t).2.2 ht.group gap_space hw gap_space
    (edged_group u)
  rw [joined, htwo, split_of_free hk (.group hu) (edged_group u).2.2]

theorem ofText_joined_or : ofText (joined "or".toList t u) = .any [ofText t, ofText u] := by
  rw [ofText_eq, trim_eq_self (edged_joined _ _ _), split_joined ht hu (.inl rfl), if_pos (by simp)]
  simp only [List.map_cons, List.map_nil, ofText_group ht, ofText_group hu]

theorem ofText_joined_and : ofText (joined "and".toList t u) = .all [ofText t, ofText u] := by
  have hw : sameLetters "and".toList "and".toList = true := beq_self_eq_true _
  have he := edged_joined "and".toList t u
  -- Alternatives are looked for first, and none is found between the groups.
  have hf : Free "or".toList 0 (joined "and".toList t u) :=
    .and_append (.group ht) (edged_group t) ht.group gap_space hw gap_space (edged_group u)
      (Inert.of_head (by decide) _ _ (.inl rfl)) (.group hu)
  rw [ofText_eq, trim_eq_self he, split_of_free (.inl rfl) hf he.2.2, if_neg (by simp),
    split_joined ht hu (.inr rfl), if_pos (by simp)]
  simp only [List.map_cons, List.map_nil, ofText_group ht, ofText_group hu]

end Groups

/-! ### Conditions that are joined as texts -/

section Texts

variable {a b : String} (ha : Balanced a.toList) (hb : Balanced b.toList)

include ha

theorem parse_not : parse ("not (" ++ a ++ ")") = .not (parse a) := by
  have h : ("not (" ++ a ++ ")").toList = negation a.toList := by simp [negation]
  rw [parse_eq_ofText, h, unescape_negation, ofText_negation ha.unescape, parse_eq_ofText]

include hb

theorem parse_or : parse ("(" ++ a ++ ") or (" ++ b ++ ")") = .any [parse a, parse b] := by
  have h : ("(" ++ a ++ ") or (" ++ b ++ ")").toList = joined "or".toList a.toList b.toList := by
    simp [joined]
  rw [parse_eq_ofText, h, unescape_joined (.inl rfl), ofText_joined_or ha.unescape hb.unescape,
    parse_eq_ofText, parse_eq_ofText]

theorem parse_and : parse ("(" ++ a ++ ") and (" ++ b ++ ")") = .all [parse a, parse b] := by
  have h : ("(" ++ a ++ ") and (" ++ b ++ ")").toList = joined "and".toList a.toList b.toList := by
    simp [joined]
  rw [parse_eq_ofText, h, unescape_joined (.inr rfl), ofText_joined_and ha.unescape hb.unescape,
    parse_eq_ofText, parse_eq_ofText]

end Texts

/-! ### What joined conditions say -/

section Values

variable (ask : Oracle Id) (p q : Condition)

theorem eval_not : (p.not.eval ask).run = !(p.eval ask).run := rfl

theorem eval_any_pair :
    ((any [p, q]).eval ask).run = ((p.eval ask).run || (q.eval ask).run) := by
  have h : ((any [p, q]).eval ask).run =
      if (p.eval ask).run then true else if (q.eval ask).run then true else false := rfl
  rw [h]
  cases (p.eval ask).run <;> cases (q.eval ask).run <;> rfl

theorem eval_all_pair :
    ((all [p, q]).eval ask).run = ((p.eval ask).run && (q.eval ask).run) := by
  have h : ((all [p, q]).eval ask).run =
      if (p.eval ask).run then if (q.eval ask).run then true else false else false := rfl
  rw [h]
  cases (p.eval ask).run <;> cases (q.eval ask).run <;> rfl

end Values

/-- Texts with balanced parentheses, whatever else is in them, are joined by the connectives: the
values are those of Boolean logic, and what is unknown in the parts is unknown in the whole. -/
theorem connectives_are_boolean (ask : Oracle Id) {a b : String} (ha : Balanced a.toList)
    (hb : Balanced b.toList) :
    ((evaluate ask ("not (" ++ a ++ ")")).run = !(evaluate ask a).run ∧
      (parse ("not (" ++ a ++ ")")).unknowns = (parse a).unknowns) ∧
    ((evaluate ask ("(" ++ a ++ ") and (" ++ b ++ ")")).run =
        ((evaluate ask a).run && (evaluate ask b).run) ∧
      (parse ("(" ++ a ++ ") and (" ++ b ++ ")")).unknowns =
        (parse a).unknowns ++ (parse b).unknowns) ∧
    (evaluate ask ("(" ++ a ++ ") or (" ++ b ++ ")")).run =
        ((evaluate ask a).run || (evaluate ask b).run) ∧
      (parse ("(" ++ a ++ ") or (" ++ b ++ ")")).unknowns =
        (parse a).unknowns ++ (parse b).unknowns := by
  unfold evaluate
  rw [parse_not ha, parse_and ha hb, parse_or ha hb]
  refine ⟨⟨eval_not ask _, rfl⟩, ⟨eval_all_pair ask _ _, ?_⟩, eval_any_pair ask _ _, ?_⟩
  · simp only [unknowns, unknownsOf, List.append_nil]
  · simp only [unknowns, unknownsOf, List.append_nil]

/-- A fragment with an escape and keywords out of place, and no text at all. -/
theorem connectives_are_boolean_of_fragment :
    let ask := Cli.completedOnly [3]
    let a := "or HasQuest( (x &amp;lt; 3) and) not  and IsQuestCompleted(3) and "
    Balanced a.toList ∧ Balanced "".toList ∧
      (evaluate ask ("not (" ++ a ++ ")")).run = !(evaluate ask a).run ∧
      (evaluate ask ("(" ++ a ++ ") and (" ++ "" ++ ")")).run =
        ((evaluate ask a).run && (evaluate ask "").run) ∧
      (parse ("(" ++ a ++ ") or (" ++ "" ++ ")")).unknowns =
        (parse a).unknowns ++ (parse "").unknowns := by
  intro ask a
  have ha : Balanced a.toList := by decide
  have hb : Balanced "".toList := by decide
  obtain ⟨⟨hnot, -⟩, ⟨hand, -⟩, -, hor⟩ := connectives_are_boolean ask ha hb
  exact ⟨ha, hb, hnot, hand, hor⟩

end Progression.Condition
