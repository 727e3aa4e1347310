import Progression.Proofs.Choosing
import Progression.Proofs.Consistency

/-!
The entries of a class, ranked by the levels they ask for. What is chosen at a level is the last of
the highest entries that are reached, in any list of entries. In consistent tables the levels of a
class rise strictly, so there is one such entry, whatever is listed for other classes around it, and
a higher level is never answered with a lower entry.
-/

namespace Progression

namespace Grind

variable {level : UInt32} {grinds : List Grind} {g g' : Grind} {place place' : Nat}

/-- There is one best entry, at one place. -/
theorem IsBestAt.unique (h : IsBestAt level grinds g place) (h' : IsBestAt level grinds g' place') :
    g = g' ∧ place = place' := by
  have hlevel : g.level = g'.level :=
    UInt32.le_antisymm (h'.highest g h.mem h.reached) (h.highest g' h'.mem h'.reached)
  have hplace : place = place' :=
    Nat.le_antisymm (h'.last _ _ h.here hlevel) (h.last _ _ h'.here hlevel.symm)
  subst hplace
  exact ⟨Option.some.inj (h.here.symm.trans h'.here), rfl⟩

theorem best?_eq_none_iff : best? level grinds = none ↔ ∀ g ∈ grinds, level < g.level := by
  refine ⟨(spec_best? level grinds).2, fun h => ?_⟩
  cases hb : best? level grinds with
  | none => rfl
  | some e =>
    have hbest := (spec_best? level grinds).1 e hb
    exact absurd hbest.reached (UInt32.not_le.2 (h e.1 hbest.mem))

theorem best?_eq_some_iff : best? level grinds = some (g, place) ↔ IsBestAt level grinds g place := by
  refine ⟨(spec_best? level grinds).1 (g, place), fun h => ?_⟩
  cases hb : best? level grinds with
  | none => exact absurd h.reached (UInt32.not_le.2 (best?_eq_none_iff.1 hb g h.mem))
  | some e =>
    obtain ⟨rfl, rfl⟩ := ((spec_best? level grinds).1 e hb).unique h
    rfl

end Grind

namespace Tables

variable (t : Tables) (j : Job)

/-- An entry is the one of a class for a level: it is reached, and no other entry of the class that
is reached is higher. -/
structure IsPick (level : UInt32) (g : Grind) : Prop where
  mem : g ∈ t.grinds
  job : g.job = j
  reached : g.level ≤ level
  highest : ∀ k ∈ t.grinds, k.job = j → k.level ≤ level → k.level ≤ g.level

/-- How a class chooses among the entries of the tables. -/
structure Ranks : Prop where
  some_iff : ∀ level g, t.bestGrind? j level = some g ↔ t.IsPick j level g
  none_iff : ∀ level, t.bestGrind? j level = none ↔ ∀ k ∈ t.grinds, k.job = j → level < k.level
  /-- A higher level is answered with an entry that is as high at least. -/
  rises : ∀ low high g, low ≤ high → t.bestGrind? j low = some g →
    ∃ g', t.bestGrind? j high = some g' ∧ g.level ≤ g'.level
  /-- No other entry of the class asks for the same level. -/
  alone : ∀ level g, t.bestGrind? j level = some g → ((t.grindsFor j).map (·.level)).count g.level = 1
  /-- Tables that list the same for the class, whatever they list for others, answer the same. -/
  apart : ∀ t' : Tables, t'.checked = .ok t' →
    (∀ g, g.job = j → (g ∈ t'.grinds ↔ g ∈ t.grinds)) →
    ∀ level, t'.bestGrind? j level = t.bestGrind? j level

variable {t j} {level : UInt32} {g g' : Grind}

theorem mem_grindsFor : g ∈ t.grindsFor j ↔ g ∈ t.grinds ∧ g.job = j := by simp [grindsFor]

theorem bestGrind?_eq_none_iff :
    t.bestGrind? j level = none ↔ ∀ k ∈ t.grinds, k.job = j → level < k.level := by
  rw [bestGrind?, Option.map_eq_none_iff, Grind.best?_eq_none_iff]
  simp only [mem_grindsFor, and_imp]

theorem isPick_of_bestGrind? (h : t.bestGrind? j level = some g) : t.IsPick j level g := by
  have hbest := isBest_of_bestGrind? h
  obtain ⟨hmem, hjob⟩ := mem_grindsFor.1 hbest.mem
  exact ⟨hmem, hjob, hbest.reached, fun k hk hj hl => hbest.level_le (mem_grindsFor.2 ⟨hk, hj⟩) hl⟩

namespace Consistent

variable (h : t.Consistent)

include h

theorem nodup_levels (j : Job) : ((t.grindsFor j).map (·.level)).Nodup :=
  (h.grinds j).imp UInt32.ne_of_lt

theorem isPick_unique (hg : t.IsPick j level g) (hg' : t.IsPick j level g') : g = g' := by
  have hlevel : g.level = g'.level := UInt32.le_antisymm
    (hg'.highest g hg.mem hg.job hg.reached) (hg.highest g' hg'.mem hg'.job hg'.reached)
  exact List.inj_on_of_nodup_map (h.nodup_levels j) (mem_grindsFor.2 ⟨hg.mem, hg.job⟩)
    (mem_grindsFor.2 ⟨hg'.mem, hg'.job⟩) hlevel

theorem bestGrind?_eq_some_iff : t.bestGrind? j level = some g ↔ t.IsPick j level g := by
  refine ⟨isPick_of_bestGrind?, fun hg => ?_⟩
  cases hb : t.bestGrind? j level with
  | none => exact absurd hg.reached (UInt32.not_le.2 (bestGrind?_eq_none_iff.1 hb g hg.mem hg.job))
  | some g' => rw [h.isPick_unique (isPick_of_bestGrind? hb) hg]

end Consistent

/-- A class that has an entry for a level has one for every higher level, which is as high. -/
theorem bestGrind?_mono {low high : UInt32} (hle : low ≤ high) (h : t.bestGrind? j low = some g) :
    ∃ g', t.bestGrind? j high = some g' ∧ g.level ≤ g'.level := by
  have hg := isPick_of_bestGrind? h
  have hreached : g.level ≤ high := UInt32.le_trans hg.reached hle
  cases hb : t.bestGrind? j high with
  | none => exact absurd hreached (UInt32.not_le.2 (bestGrind?_eq_none_iff.1 hb g hg.mem hg.job))
  | some g' => exact ⟨g', rfl, (isPick_of_bestGrind? hb).highest g hg.mem hg.job hreached⟩

/-- **The best entry is chosen.** Of any list of entries, sorted or not, it is the last of the highest
that are reached, with its place, and there is none only if no entry is reached; and every class
of consistent tables chooses by its own entries alone, and not lower at a higher level. -/
theorem best_entry_is_chosen :
    (∀ level grinds,
      (Grind.best? level grinds = none ↔ ∀ g ∈ grinds, level < g.level) ∧
      ∀ g place, Grind.best? level grinds = some (g, place) ↔ Grind.IsBestAt level grinds g place) ∧
    ∀ t : Tables, t.checked = .ok t → ∀ j, t.Ranks j := by
  refine ⟨fun _ _ => ⟨Grind.best?_eq_none_iff, fun _ _ => Grind.best?_eq_some_iff⟩, ?_⟩
  intro t hchecked j
  have h := consistent_of_checked hchecked
  refine ⟨fun _ _ => h.bestGrind?_eq_some_iff, fun _ => bestGrind?_eq_none_iff,
    fun _ _ _ => bestGrind?_mono, ?_, ?_⟩
  · intro level g hg
    have hmem := (isBest_of_bestGrind? hg).mem
    exact List.count_eq_one_of_mem (h.nodup_levels j) (List.mem_map_of_mem hmem)
  · intro t' hchecked' hsame level
    have h' := consistent_of_checked hchecked'
    have hpick (g : Grind) : t'.IsPick j level g ↔ t.IsPick j level g := by
      constructor
      · exact fun hg => ⟨(hsame g hg.job).1 hg.mem, hg.job, hg.reached,
          fun k hk hj => hg.highest k ((hsame k hj).2 hk) hj⟩
      · exact fun hg => ⟨(hsame g hg.job).2 hg.mem, hg.job, hg.reached,
          fun k hk hj => hg.highest k ((hsame k hj).1 hk) hj⟩
    refine Option.ext fun g => ?_
    rw [h'.bestGrind?_eq_some_iff, h.bestGrind?_eq_some_iff, hpick]

/-- Two classes whose entries are mixed. -/
theorem best_entry_is_chosen_of_mixed :
    let t : Tables := { grinds :=
      [⟨.miner, 1, 7, 4⟩, ⟨.weaver, 3, 9, 1⟩, ⟨.miner, 6, 8, 2⟩, ⟨.weaver, 7, 10, 1⟩] }
    let t' : Tables := { grinds := [⟨.weaver, 2, 9, 3⟩, ⟨.miner, 1, 7, 4⟩, ⟨.miner, 6, 8, 2⟩] }
    t.checked = .ok t ∧ t'.checked = .ok t' ∧ t.bestGrind? .miner 6 = some ⟨.miner, 6, 8, 2⟩ ∧
      t'.bestGrind? .miner 20 = t.bestGrind? .miner 20 ∧
      ∃ g', t.bestGrind? .miner 20 = some g' ∧ 6 ≤ g'.level := by
  intro t t'
  have hchecked : t.checked = .ok t := by decide +kernel
  have hchecked' : t'.checked = .ok t' := by decide +kernel
  have hsix : t.bestGrind? .miner 6 = some ⟨.miner, 6, 8, 2⟩ := by decide +kernel
  have hranks := best_entry_is_chosen.2 t hchecked .miner
  have hsame : ∀ g : Grind, g.job = .miner → (g ∈ t'.grinds ↔ g ∈ t.grinds) := by
    intro g hg
    have hother : ∀ level item amount, g ≠ ⟨.weaver, level, item, amount⟩ := by
      rintro level item amount rfl
      cases hg
    simp [t, t', hother]
  exact ⟨hchecked, hchecked', hsix, hranks.apart t' hchecked' hsame 20,
    hranks.rises 6 20 _ (by decide) hsix⟩

end Tables
end Progression
