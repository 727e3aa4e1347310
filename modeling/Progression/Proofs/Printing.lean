import Progression.Cli.Plan
import Progression.Proofs.Condition.Writing
import Progression.Proofs.Journal

/-!
What a preview prints. A line of a table has only characters of its cells, blanks and dashes
(`mem_of_mem_tableLines`), so a line with a character that no cell has is none of them: the line that
says that there is no way on is printed exactly if there is none.
-/

namespace Progression.Cli

/-! ### Tables of a report -/

section Tables

variable {α β γ : Type} {c : Char} {headers : List String} {rows : List (List String)}

theorem mem_of_mem_intersperse {sep x : α} {xs : List α} (h : x ∈ xs.intersperse sep) :
    x = sep ∨ x ∈ xs := by
  induction xs with
  | nil => cases h
  | cons y ys ih =>
    cases ys with
    | nil => exact .inr h
    | cons z ys =>
      rw [List.intersperse_cons_cons] at h
      rcases List.mem_cons.1 h with rfl | h
      · exact .inr List.mem_cons_self
      rcases List.mem_cons.1 h with rfl | h
      · exact .inl rfl
      · exact (ih h).imp_right (.tail _)

theorem exists_of_mem_zipWith {f : α → β → γ} {xs : List α} {ys : List β} {z : γ}
    (h : z ∈ xs.zipWith f ys) : ∃ x ∈ xs, ∃ y ∈ ys, z = f x y := by
  have hzip : xs.zipWith f ys = (xs.zip ys).map fun p => f p.1 p.2 := by
    rw [List.map_zip_eq_zipWith]
    rfl
  obtain ⟨⟨x, y⟩, hxy, rfl⟩ := List.mem_map.1 (hzip ▸ h)
  exact ⟨x, (List.of_mem_zip hxy).1, y, (List.of_mem_zip hxy).2, rfl⟩

/-- A row is written with the characters of its cells, and blanks. -/
theorem mem_of_mem_rowLine {widths : List Nat} {cells : List String}
    (h : c ∈ (rowLine widths cells).toList) : c = ' ' ∨ ∃ cell ∈ cells, c ∈ cell.toList := by
  rw [rowLine, String.toList_ofList] at h
  have htrimmed := (List.dropWhile_sublist _).subset (List.mem_reverse.1 h)
  obtain ⟨part, hpart, hc⟩ := List.mem_flatten.1 (List.mem_reverse.1 htrimmed)
  rcases mem_of_mem_intersperse hpart with rfl | hpart
  · exact .inl (by simpa using hc)
  · obtain ⟨cell, hcell, w, -, rfl⟩ := exists_of_mem_zipWith hpart
    rcases List.mem_append.1 hc with hc | hc
    · exact .inr ⟨cell, hcell, hc⟩
    · exact .inl (List.eq_of_mem_replicate hc)

/-- A table is written with the characters of its cells, blanks, and the dashes of its rule. -/
theorem mem_of_mem_tableLines {line : String} (hline : line ∈ tableLines headers rows)
    (hc : c ∈ line.toList) :
    c = ' ' ∨ c = '-' ∨ ∃ row ∈ headers :: rows, ∃ cell ∈ row, c ∈ cell.toList := by
  obtain ⟨row, hrow, rfl⟩ := List.mem_map.1 hline
  rcases mem_of_mem_rowLine hc with hblank | ⟨cell, hcell, hc⟩
  · exact .inl hblank
  rcases List.mem_cons.1 hrow with hhead | hrow
  · exact .inr (.inr ⟨row, hhead ▸ List.mem_cons_self, cell, hcell, hc⟩)
  rcases List.mem_cons.1 hrow with rfl | hrow
  · obtain ⟨w, -, rfl⟩ := List.mem_map.1 hcell
    rw [String.toList_ofList] at hc
    exact .inr (.inl (List.eq_of_mem_replicate hc))
  · exact .inr (.inr ⟨row, .tail _ hrow, cell, hcell, hc⟩)

end Tables

/-! ### Previews -/

namespace Preview

variable (v : Preview)

theorem isStuck_iff : v.isStuck = true ↔ v.next = none ∧ v.grind = none := by
  simp [isStuck, and_comm]

/-- What comes next is the first objective of the table that can be taken. -/
theorem next_make (goals : Goals) (t : Tables) (j : Job) (level : UInt32)
    (completed : List ObjectiveId) : (make goals t j level completed).next =
      (t.objectivesFor j).find? fun o => o.Eligible (completedOnly completed) level := by
  rw [next, make, List.head?_filter]
  exact congrArg (List.find? · _) (funext fun o => Objective.isEligible_eq_decide)

/-- The words for a class that cannot go on. -/
def noWayOn : String := "No progress possible: the loop would stop immediately."

theorem not_mem_row (o : Objective) : ∀ cell ∈ row o, 'g' ∉ cell.toList := by
  have hdigits (n : Nat) : 'g' ∉ Number.decimal n := fun h =>
    absurd (isAsciiDigit_decimal n _ h) (by decide)
  unfold row
  split <;> simp [Number.text, hdigits]

/-- No line of the table of objectives has a letter `g`. -/
theorem noWayOn_notMem_tableLines (os : List Objective) :
    noWayOn ∉ tableLines ["OBJECTIVE", "LEVEL", "ACTOR", "ZONE", "DELIVER"] (os.map row) := by
  intro hline
  have hg : 'g' ∈ noWayOn.toList := by decide
  rcases mem_of_mem_tableLines hline hg with h | h | ⟨cells, hcells, cell, hcell, h⟩
  · cases h
  · cases h
  rcases List.mem_cons.1 hcells with rfl | hcells
  · have hheaders : ∀ cell ∈ ["OBJECTIVE", "LEVEL", "ACTOR", "ZONE", "DELIVER"],
        'g' ∉ cell.toList := by decide
    exact hheaders cell hcell h
  · obtain ⟨o, -, rfl⟩ := List.mem_map.1 hcells
    exact not_mem_row o cell hcell h

theorem ne_append_of_head? {s a b : String} {c : Char} (ha : a.toList.head? = some c)
    (hs : s.toList.head? ≠ some c) : s ≠ a ++ b := by
  rintro rfl
  rw [String.toList_append, List.head?_append, ha] at hs
  exact hs rfl

/-- The words are printed exactly for a class below its target that cannot go on. -/
theorem noWayOn_mem_lines_iff :
    noWayOn ∈ v.lines ↔ v.isStuck = true ∧ v.level < v.target := by
  have hhead : noWayOn.toList.head? = some 'N' := by decide
  have htitle (x : String) : noWayOn ≠ v.job.title ++ x := by
    have hcap : v.job.title.toList.head?.isSome ∧ v.job.title.toList.head? ≠ some 'N' := by
      cases v.job <;> decide
    obtain ⟨c, hc⟩ := Option.isSome_iff_exists.1 hcap.1
    refine ne_append_of_head? hc ?_
    rw [hhead, ← hc]
    exact hcap.2.symm
  have hgrind (x : String) : noWayOn ≠ "Grind: item " ++ x :=
    ne_append_of_head? (c := 'G') (by decide) (by decide)
  have hreached : noWayOn ∉ if v.target ≤ v.level then
      ["Target already reached; the leveling loop would not run."] else [] := by
    split <;> decide
  have hnone : noWayOn ≠ "Grind: none applies at this level" := by decide
  have hobjectives : noWayOn ∉ if v.eligible.isEmpty then ["Objectives: none eligible"]
      else "" :: tableLines ["OBJECTIVE", "LEVEL", "ACTOR", "ZONE", "DELIVER"]
        (v.eligible.map row) := by
    split
    · decide
    · exact List.not_mem_cons_of_ne_of_not_mem (by decide) (noWayOn_notMem_tableLines v.eligible)
  unfold lines
  simp only [List.mem_append, List.mem_singleton, String.append_assoc, htitle, hreached,
    hobjectives, false_or, or_false]
  constructor
  · rintro (h | h)
    · split at h
      · exact absurd h (hgrind _)
      · exact absurd h hnone
    · simpa using (List.mem_ite_nil_right.1 h).1
  · rintro ⟨hstuck, hbelow⟩
    right
    simp [hstuck, hbelow, noWayOn]

/-- The preview as JSON names what comes next and the entry, and says `null` for what there is
not. -/
theorem toJson_says : ∃ fields, v.toJson = .object fields ∧
    Json.field? "next_objective" fields = some (match v.next with
      | some o => o.write
      | none => .null) ∧
    Json.field? "grind" fields = some (match v.grind with
      | some g => g.write
      | none => .null) := by
  refine ⟨_, rfl, ?_, ?_⟩
  · cases v.next <;> rfl
  · cases v.grind <;> rfl

end Preview

/-- The files and the name that a command is given stand for goals, for tables and for a class. -/
structure Reads (files : Tree) (config tables name : String) (goals : Goals) (t : Tables) (j : Job) :
    Prop where
  config : ∃ c, Config.loadOrDefault files config = .ok c ∧ c.goals = goals
  tables : Tables.load files tables = .ok t
  job : Job.read name = .ok j

/-- The command prints the preview for what it is given. -/
theorem plan_eq {files : Tree} {config tables name : String} {goals : Goals} {t : Tables} {j : Job}
    (h : Reads files config tables name goals t j) (level : UInt32) (completed : List ObjectiveId)
    (json : Bool) : plan files config tables name level completed json =
      if json then .ofJson (Preview.make goals t j level completed).toJson
      else .ofLines (Preview.make goals t j level completed).lines := by
  obtain ⟨⟨c, hc, rfl⟩, ht, hj⟩ := h
  unfold plan withConfig
  simp only [hc, ht, hj]

end Progression.Cli
