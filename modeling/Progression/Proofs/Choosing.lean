import Progression.Proofs.Directing

/-!
What is chosen at a level. Of the entries of a class the one with the highest level that is reached
is chosen, and the last one of equals; none is chosen only if none is reached. An objective is
chosen if it can be taken, and none is chosen only if the looks at each of them rule it out.
-/

namespace Progression

variable {σ : Type}

/-! ### Entries -/

namespace Grind

/-- The entry that is to be chosen at a level: it is reached, and of all that are, none is higher,
and those behind it are lower. -/
structure IsBest (level : UInt32) (grinds : List Grind) (g : Grind) : Prop where
  reached : g.level ≤ level
  highest : ∃ front back, grinds = front ++ g :: back ∧
    (∀ k ∈ front, k.level ≤ level → k.level ≤ g.level) ∧
    ∀ k ∈ back, k.level ≤ level → k.level < g.level

variable {level : UInt32} {grinds : List Grind} {g k : Grind}

theorem IsBest.mem (h : IsBest level grinds g) : g ∈ grinds := by
  obtain ⟨front, back, rfl, -, -⟩ := h.highest
  simp

theorem IsBest.level_le (h : IsBest level grinds g) (hk : k ∈ grinds) (hl : k.level ≤ level) :
    k.level ≤ g.level := by
  obtain ⟨front, back, rfl, hfront, hback⟩ := h.highest
  rcases List.mem_append.1 hk with hk | hk
  · exact hfront k hk hl
  · rcases List.mem_cons.1 hk with rfl | hk
    · exact UInt32.le_refl _
    · exact UInt32.le_of_lt (hback k hk hl)

/-- One more entry: it is chosen if it is reached, unless one before it is higher. -/
theorem best?_concat (level : UInt32) (grinds : List Grind) (k : Grind) :
    best? level (grinds ++ [k]) =
      if k.level ≤ level then
        some ((best? level grinds).elim (k, grinds.length) (better · (k, grinds.length)))
      else best? level grinds := by
  unfold best?
  rw [List.zipIdx_append, List.filter_append, List.foldl_append]
  generalize List.foldl _ none _ = best
  by_cases hk : k.level ≤ level
  · rw [if_pos hk, List.zipIdx_singleton, List.filter_cons_of_pos (by simpa using hk)]
    cases best <;> simp
  · rw [if_neg hk, List.zipIdx_singleton, List.filter_cons_of_neg (by simpa using hk)]
    rfl

/-- The place of the best entry: it is reached, and of all that are, none is higher, and none behind
it is as high. -/
structure IsBestAt (level : UInt32) (grinds : List Grind) (g : Grind) (place : Nat) : Prop where
  here : grinds[place]? = some g
  reached : g.level ≤ level
  highest : ∀ k ∈ grinds, k.level ≤ level → k.level ≤ g.level
  last : ∀ i k, grinds[i]? = some k → k.level = g.level → i ≤ place

section Places

variable {place : Nat}

theorem IsBestAt.mem (h : IsBestAt level grinds g place) : g ∈ grinds := List.mem_of_getElem? h.here

theorem IsBestAt.isBest (h : IsBestAt level grinds g place) : IsBest level grinds g := by
  obtain ⟨hplace, hg⟩ := List.getElem?_eq_some_iff.1 h.here
  refine ⟨h.reached, grinds.take place, grinds.drop (place + 1), ?_, ?_, ?_⟩
  · rw [← hg, ← List.drop_eq_getElem_cons, List.take_append_drop]
  · exact fun k hk => h.highest k (List.mem_of_mem_take hk)
  · intro k hk hl
    refine UInt32.lt_of_le_of_ne (h.highest k (List.mem_of_mem_drop hk) hl) fun heq => ?_
    obtain ⟨i, hi⟩ := List.getElem?_of_mem hk
    rw [List.getElem?_drop] at hi
    have := h.last _ k hi (by rw [heq])
    omega

theorem IsBestAt.concat (h : IsBestAt level grinds g place)
    (hk : k.level ≤ level → k.level < g.level) : IsBestAt level (grinds ++ [k]) g place where
  here := by
    rw [List.getElem?_append_left (List.getElem?_eq_some_iff.1 h.here).1]
    exact h.here
  reached := h.reached
  highest := List.forall_mem_append.2
    ⟨h.highest, by simpa using fun hl => UInt32.le_of_lt (hk hl)⟩
  last i k' hi heq := by
    rcases Nat.lt_or_ge i grinds.length with hlt | hge
    · rw [List.getElem?_append_left hlt] at hi
      exact h.last i k' hi heq
    · rw [List.getElem?_append_right hge] at hi
      cases List.mem_singleton.1 (List.mem_of_getElem? hi)
      exact absurd (heq ▸ hk (heq ▸ h.reached)) (UInt32.lt_irrefl _)

theorem isBestAt_concat (hk : k.level ≤ level)
    (h : ∀ g ∈ grinds, g.level ≤ level → g.level ≤ k.level) :
    IsBestAt level (grinds ++ [k]) k grinds.length where
  here := by simp
  reached := hk
  highest := List.forall_mem_append.2 ⟨h, by simp⟩
  last i k' hi _ := by
    have := (List.getElem?_eq_some_iff.1 hi).1
    simp at this
    omega

end Places

/-- What is chosen is the best entry and its place; if nothing is chosen, no entry is reached. -/
theorem spec_best? (level : UInt32) (grinds : List Grind) :
    (∀ e, best? level grinds = some e → IsBestAt level grinds e.1 e.2) ∧
      (best? level grinds = none → ∀ g ∈ grinds, level < g.level) := by
  induction grinds using List.reverseRecOn with
  | nil => exact ⟨nofun, by simp⟩
  | append_singleton grinds k ih =>
    obtain ⟨hsome, hnone⟩ := ih
    rw [best?_concat]
    by_cases hk : k.level ≤ level
    · rw [if_pos hk]
      refine ⟨?_, nofun⟩
      rintro e he
      cases Option.some.inj he
      cases hb : best? level grinds with
      | none => exact isBestAt_concat hk fun g hg hl => absurd hl (UInt32.not_le.2 (hnone hb g hg))
      | some b =>
        have hbest := hsome b hb
        dsimp only [Option.elim]
        unfold better
        split
        · next hle =>
          exact isBestAt_concat hk fun g hg hl => UInt32.le_trans (hbest.highest g hg hl) hle
        · next hle => exact hbest.concat fun _ => UInt32.not_le.1 hle
    · rw [if_neg hk]
      refine ⟨fun e he => (hsome e he).concat fun h => absurd h hk, fun hb => ?_⟩
      exact List.forall_mem_append.2 ⟨hnone hb, by simpa using hk⟩

end Grind

section Entries

variable {t : Tables} {j : Job} {level : UInt32}

theorem Tables.isBest_of_bestGrind? {g : Grind} (h : t.bestGrind? j level = some g) :
    Grind.IsBest level (t.grindsFor j) g := by
  obtain ⟨e, he, rfl⟩ := Option.map_eq_some_iff.1 h
  exact ((Grind.spec_best? level _).1 e he).isBest

theorem Tables.lt_of_bestGrind?_eq_none (h : t.bestGrind? j level = none) :
    ∀ g ∈ t.grindsFor j, level < g.level :=
  (Grind.spec_best? level _).2 (Option.map_eq_none_iff.1 h)

end Entries

/-! ### Objectives -/

namespace Objective

/-- An objective can be taken at a level, by what the game answers. -/
structure Eligible (answer : Oracle Id) (level : UInt32) (o : Objective) : Prop where
  reached : o.level ≤ level
  pending : (answer (.completed o.id) : Bool) = false
  free : (answer (.held o.id) : Bool) = false
  prepared : o.prerequisite = 0 ∨ (answer (.completed o.prerequisite) : Bool) = true

/-- Why an objective cannot be taken at a level, by looks that were taken. -/
inductive RuledOut (level : UInt32) (es : List Entry) (o : Objective) : Prop
  | early : level < o.level → RuledOut level es o
  | completed {time : Nat} : ⟨time, .asked (.completed o.id) true⟩ ∈ es → RuledOut level es o
  | held {time : Nat} : ⟨time, .asked (.held o.id) true⟩ ∈ es → RuledOut level es o
  | blocked {time : Nat} : o.prerequisite ≠ 0 →
    ⟨time, .asked (.completed o.prerequisite) false⟩ ∈ es → RuledOut level es o

variable {level : UInt32} {es fs : List Entry} {o : Objective} {h : Host σ} {s t : Session σ}

theorem RuledOut.mono (ho : o.RuledOut level es) (hsub : ∀ e ∈ es, e ∈ fs) :
    o.RuledOut level fs := by
  cases ho with
  | early hl => exact .early hl
  | completed he => exact .completed (hsub _ he)
  | held he => exact .held (hsub _ he)
  | blocked hp he => exact .blocked hp (hsub _ he)

/-- A look is answered by what can be seen. -/
theorem eq_of_look {q : Query} {x : q.Answer} (hgo : (h.look q).go s = (.ok x, t)) :
    x = h.sees s q := by
  rw [h.go_look] at hgo
  cases hgo
  rfl

/-- An objective that is not found eligible is ruled out by the looks; where looks change nothing
that can be seen, it cannot be taken. -/
theorem ruledOut_of_isEligible (hgo : (o.isEligible h.look level).go s = (.ok false, t)) :
    ∃ es, h.Glance s t es ∧ o.RuledOut level es ∧
      (h.Steady → ¬ o.Eligible (h.sees s) level) := by
  unfold isEligible at hgo
  by_cases hl : level < o.level
  · rw [if_pos hl] at hgo
    cases hgo
    exact ⟨[], .refl s, .early hl, fun _ he => UInt32.not_le.2 hl he.reached⟩
  rw [if_neg hl] at hgo
  obtain ⟨completed, u, hu, hgo⟩ := Act.go_bind_eq_ok.1 hgo
  have hcompleted := eq_of_look hu
  have hgu := Host.glance_of_look hu
  cases completed with
  | true =>
    cases hgo
    refine ⟨_, hgu, .completed (.head _), fun _ he => ?_⟩
    rw [he.pending] at hcompleted
    cases hcompleted
  | false =>
    obtain ⟨held, v, hv, hgo⟩ := Act.go_bind_eq_ok.1 hgo
    have hheld := eq_of_look hv
    have hgv := hgu.trans (Host.glance_of_look hv)
    cases held with
    | true =>
      cases hgo
      refine ⟨_, hgv, .held (.tail _ (.head _)), fun hs he => ?_⟩
      rw [hgu.sees hs, he.free] at hheld
      cases hheld
    | false =>
      rw [if_neg Bool.false_ne_true] at hgo
      by_cases hp : o.prerequisite = 0
      · rw [if_pos hp] at hgo
        cases hgo
      · rw [if_neg hp] at hgo
        have hprepared := eq_of_look hgo
        refine ⟨_, hgv.trans (Host.glance_of_look hgo), .blocked hp (.tail _ (.tail _ (.head _))),
          fun hs he => ?_⟩
        rw [hgv.sees hs, he.prepared.resolve_left hp] at hprepared
        cases hprepared

/-- No objective is chosen only if each one is ruled out. -/
theorem ruledOut_of_firstEligible? {os : List Objective}
    (hgo : (firstEligible? h.look level os).go s = (.ok none, t)) :
    ∃ es, h.Glance s t es ∧ (∀ o ∈ os, o.RuledOut level es) ∧
      (h.Steady → ∀ o ∈ os, ¬ o.Eligible (h.sees s) level) := by
  induction os generalizing s with
  | nil =>
    cases hgo
    exact ⟨[], .refl _, by simp, by simp⟩
  | cons o os ih =>
    obtain ⟨eligible, u, hu, hgo⟩ := Act.go_bind_eq_ok.1 hgo
    cases eligible with
    | true => cases hgo
    | false =>
      obtain ⟨es, hg, ho, hno⟩ := ruledOut_of_isEligible hu
      obtain ⟨fs, hg', hos, hnone⟩ := ih hgo
      refine ⟨es ++ fs, hg.trans hg', ?_, fun hs => ?_⟩
      · refine List.forall_mem_cons.2 ⟨ho.mono (by simp +contextual), fun o' ho' => ?_⟩
        exact (hos o' ho').mono (by simp +contextual)
      · refine List.forall_mem_cons.2 ⟨hno hs, ?_⟩
        rw [← hg.sees hs]
        exact hnone hs

end Objective
end Progression
