import Progression.Proofs.Choosing
import Progression.Proofs.Leveling.Ascent
import Progression.Proofs.Leveling.Unfolding
import Progression.Scenario

/-!
Whether orders fit the level at which they are handed over. The entry of a round is chosen when the
round is begun, for the level that is read then. Its order still fits when it is handed over if
nothing was done since and no time has passed, or if the level is the same for another reason; an
objective that is pursued in between can raise the level so that another entry applies, or none.
-/

namespace Progression

variable {σ : Type}

/-! ### Orders in a history -/

theorem Hands.handed?_eq_none {es : List Entry} (h : Hands noOrders es) {e : Entry} (he : e ∈ es) :
    e.event.handed? = none := by
  cases ho : e.event.handed? with
  | none => rfl
  | some x =>
    obtain ⟨d, orders⟩ := x
    exact (h.of_mem he ho).elim

/-- Something in an appended list is in the one part or in the other. -/
theorem append_eq_append_cons {α : Type} {xs ys front back : List α} {y : α}
    (h : xs ++ ys = front ++ y :: back) :
    (∃ rest, xs = front ++ y :: rest) ∨ ∃ front', front = xs ++ front' ∧ ys = front' ++ y :: back := by
  rcases List.append_eq_append_iff.1 h with ⟨front', hfront, hys⟩ | ⟨rest, hxs, hrest⟩
  · exact .inr ⟨front', hfront, hys⟩
  · cases rest with
    | nil => exact .inr ⟨[], by simpa using hxs.symm, hrest.symm⟩
    | cons x rest => cases hrest; exact .inl ⟨rest, hxs⟩

section Rounds

variable {j : Job} {front back : List Entry} {e : Entry} {x : String × List Order}
  (he : e.event.handed? = some x)

include he

/-- An order that is handed over with a round comes behind the mark of the round. -/
theorem LevelRound.exists_of_handed {r : LevelRound} (h : r.all j = front ++ e :: back) :
    ∃ mid, front = ⟨r.time, .asked (.level j) r.level⟩ :: ⟨r.time, .round j r.level⟩ :: mid ∧
      r.entries = mid ++ e :: back := by
  match front, h with
  | [], h => cases h; cases he
  | [_], h => cases h; cases he
  | a :: b :: mid, h =>
    simp only [LevelRound.all, List.cons_append, List.cons.injEq] at h
    obtain ⟨rfl, rfl, hentries⟩ := h
    exact ⟨mid, rfl, hentries⟩

/-- An order that is handed over in rounds is handed over in one of them. -/
theorem exists_round_of_handed {rs : List LevelRound} {last : List Entry}
    (hlast : ∀ e' ∈ last, e'.event.handed? = none)
    (h : rs.flatMap (·.all j) ++ last = front ++ e :: back) :
    ∃ r ∈ rs, ∃ pre mid post, front = pre ++ ⟨r.time, .asked (.level j) r.level⟩ ::
      ⟨r.time, .round j r.level⟩ :: mid ∧ r.entries = mid ++ e :: post := by
  induction rs generalizing front with
  | nil =>
    have hmem : e ∈ last := by
      rw [show last = front ++ e :: back from h]
      simp
    rw [hlast e hmem] at he
    cases he
  | cons r rs ih =>
    rw [List.flatMap_cons, List.append_assoc] at h
    rcases append_eq_append_cons h with ⟨post, hall⟩ | ⟨front', rfl, h'⟩
    · obtain ⟨mid, rfl, hentries⟩ := LevelRound.exists_of_handed he hall
      exact ⟨r, by simp, [], mid, post, rfl, hentries⟩
    · obtain ⟨r', hr', pre, mid, post, rfl, hentries⟩ := ih h'
      exact ⟨r', .tail _ hr', r.all j ++ pre, mid, post, by simp, hentries⟩

end Rounds

namespace Plan

variable {p : Plan σ} {j : Job} {s t : Session σ}

theorem IsRound.marks {level : UInt32} {es : List Entry}
    {ended : Except Halt (Option LevelingOutcome)} (h : p.IsRound j level s es ended t) :
    rounds es = [] := by
  obtain ⟨fs, gs, rfl, hfs, hgs⟩ := h.parts
  rw [rounds_append, hfs.marks, hgs.marks]
  rfl

/-! ### Orders that fit -/

variable (p j)

/-- Orders that fit a level: it is below the goal, and they are those of the best entry there. -/
def Fits (level : UInt32) (orders : List Order) : Prop :=
  level < p.goals.target j ∧
    ∃ g, Grind.IsBest level (p.tables.grindsFor j) g ∧ orders = [{
      item := g.item, amount := g.amount
      kind := if j ∈ Job.gatherers then "Gather" else j.title }]

/-- The level of a class at a time, after what happened since a session. -/
def levelAt (s : Session σ) (es : List Entry) (time : Nat) : UInt32 :=
  p.host.tells ⟨time, p.host.replay s.world es⟩ (.level j)

/-- Orders that were chosen when a round was begun, and are handed over at a time, with what
happened since a session. -/
structure Chosen (s : Session σ) (front : List Entry) (time : Nat) (orders : List Order)
    (level : UInt32) (mark : Nat) (pre mid : List Entry) : Prop where
  front_eq : front = pre ++ ⟨mark, .asked (.level j) level⟩ :: ⟨mark, .round j level⟩ :: mid
  /-- The round is the last one that was begun. -/
  marks : rounds mid = []
  seen : p.levelAt j s pre mark = level
  fits : p.Fits j level orders
  /-- If nothing was done since and no time has passed, they fit the level at which they are handed
  over as well. -/
  still : p.host.Steady → (∀ e ∈ mid, e.event.IsLook ∧ e.time = mark) → time = mark →
    p.Fits j (p.levelAt j s front time) orders

variable {p j}

theorem levelAt_of_looks (hs : p.host.Steady) {level : UInt32} {mark : Nat} {pre mid : List Entry}
    (hmid : ∀ e ∈ mid, e.event.IsLook ∧ e.time = mark) :
    p.levelAt j s (pre ++ ⟨mark, .asked (.level j) level⟩ :: ⟨mark, .round j level⟩ :: mid) mark =
      p.levelAt j s pre mark := by
  let w := p.host.replay s.world pre
  let look : Entry := ⟨mark, .asked (.level j) level⟩
  have hlook : p.host.tells ⟨mark, p.host.replay w [look]⟩ = p.host.tells ⟨mark, w⟩ :=
    hs.replay_looks (by simp [look, Event.IsLook])
  have hrest : p.host.tells ⟨mark, p.host.replay (p.host.replay w [look]) mid⟩ =
      p.host.tells ⟨mark, p.host.replay w [look]⟩ := hs.replay_looks hmid
  unfold levelAt
  rw [Host.replay_append, ← hlook, ← hrest]
  rfl

/-- Every order of a leveling is for what an objective asks for, or that of an entry which was
chosen when its round was begun: the entry fits the level that was read then, and so it fits the
level at which its order is handed over unless something was done in between. -/
theorem levelClass_orders_fit {phase : Phase} {es front back : List Entry} {e : Entry} {d : String}
    {orders : List Order} {result : Except Halt ClassRun}
    (hgo : (p.levelClass phase j).go s = (result, t)) (hadds : s.Adds t es)
    (hes : es = front ++ e :: back) (he : e.event.handed? = some (d, orders)) :
    d = "Objective" ∧ p.IsDeliverable j orders ∨
      d = "Grinding" ∧ ∃ level mark pre mid,
        p.Chosen j s front e.time orders level mark pre mid := by
  obtain ⟨start, result', t', lead, rs, last, hgo', -, hclimb⟩ := p.climb_of_levelClass j phase s
  rw [hgo] at hgo'
  cases hgo'
  obtain ⟨es', hadds', hrecounts, -⟩ :=
    (p.along_levelClass j p.host.carriesLeveling_replays phase).of_go hgo
  cases hadds.unique hadds'
  have hsplit := hadds.unique hclimb.works.adds
  rw [hes, List.append_assoc] at hsplit
  -- The order is handed over in a round: what comes before the rounds hands over nothing.
  have hround : ∃ r ∈ rs, ∃ pre mid post, front = pre ++ ⟨r.time, .asked (.level j) r.level⟩ ::
      ⟨r.time, .round j r.level⟩ :: mid ∧ r.entries = mid ++ e :: post := by
    rcases append_eq_append_cons hsplit.symm with ⟨rest, hlead⟩ | ⟨front', rfl, hrounds⟩
    · have hnone := hclimb.hands.1.handed?_eq_none (e := e) (by simp [hlead])
      rw [he] at hnone
      cases hnone
    · obtain ⟨r, hr, pre, mid, post, rfl, hentries⟩ :=
        exists_round_of_handed he (fun e' he' => hclimb.hands.2.handed?_eq_none he') hrounds
      exact ⟨r, hr, lead ++ pre, mid, post, by simp, hentries⟩
  obtain ⟨r, hr, pre, mid, post, rfl, hentries⟩ := hround
  obtain ⟨hbelow, u, ended, v, hround⟩ := hclimb.isRound hr
  rcases hround.orders e (by simp [hentries]) d orders he with hdeliverable | ⟨hd, g, hg, ho⟩
  · exact .inl hdeliverable
  · refine .inr ⟨hd, r.level, r.time, pre, mid, ?_⟩
    have hseen : p.levelAt j s pre r.time = r.level := by
      rw [hes, List.append_assoc] at hrecounts
      exact hrecounts.tells
    have hfits : p.Fits j r.level orders := ⟨hbelow, g, Tables.isBest_of_bestGrind? hg, ho⟩
    refine ⟨rfl, ?_, hseen, hfits, ?_⟩
    · have hmarks := hround.marks
      rw [hentries, rounds_append] at hmarks
      exact (List.append_eq_nil_iff.1 hmarks).1
    · intro hs hmid htime
      rwa [htime, levelAt_of_looks hs hmid, hseen]

/-- An entry of a history, with what stands before and behind it. -/
theorem exists_split {es : List Entry} {e : Entry} {k : Nat} (h : es[k]? = some e) :
    es = es.take k ++ e :: es.drop (k + 1) := by
  obtain ⟨hk, rfl⟩ := List.getElem?_eq_some_iff.1 h
  rw [← List.drop_eq_getElem_cons, List.take_append_drop]

/-- The second order of a miner who is leveled from 5, and has come to 6 by the first. -/
theorem levelClass_orders_fit_of_miner :
    let p : Plan Scenario := {
      host := Scenario.host, timing := {}, rounds := 50
      tables := { grinds := [⟨.miner, 1, 7, 4⟩, ⟨.miner, 6, 8, 2⟩] }
      goals := { gatherers := 7 } }
    let s : Session Scenario := { world := { levels := [(.miner, 5)], gain := 1 } }
    let t := ((p.levelClass .levelGatherers .miner).go s).2
    ∃ front e back, s.Adds t (front ++ e :: back) ∧
      e.event.handed? = some ("Grinding", [Order.new 8 2 .miner]) ∧
      ∃ level mark pre mid, p.Chosen .miner s front e.time [Order.new 8 2 .miner] level mark pre mid := by
  intro p s t
  have hadds : s.Adds t t.history.reverse := by simp [Session.Adds, s]
  have hk : (t.history.reverse[23]?.bind fun e => e.event.handed?) =
    some ("Grinding", [Order.new 8 2 .miner]) := by decide +kernel
  obtain ⟨e, he, hhanded⟩ := Option.bind_eq_some_iff.1 hk
  have hsplit := exists_split he
  let a := p.levelClass .levelGatherers .miner
  rcases levelClass_orders_fit (a.go_eq_of_fst rfl) hadds hsplit hhanded with ⟨hd, -⟩ | ⟨-, hchosen⟩
  · exact absurd hd (by decide)
  · rw [hsplit] at hadds
    exact ⟨_, e, _, hadds, hhanded, hchosen⟩

/-- The first order of a miner who rises from 5 to 6 by the objective before it: it is that of the
entry for 5, although another one applies from 6 on. -/
theorem levelClass_orders_late :
    let p : Plan Scenario := {
      host := Scenario.host, timing := {}, rounds := 50
      tables := {
        grinds := [⟨.miner, 1, 7, 4⟩, ⟨.miner, 6, 8, 2⟩]
        objectives := [(.miner, [{
          id := 9000, level := 1, actor := 500, zone := 129, place := .origin }])] }
      goals := { gatherers := 7 } }
    let s : Session Scenario := { world := {
      levels := [(.miner, 5)]
      reactions := [
        ⟨.interact 500, [.grant 9000, .opens .journalResult], none⟩,
        ⟨.advance .journalResult, [.complete 9000, .level .miner 6], none⟩] } }
    let t := ((p.levelClass .levelGatherers .miner).go s).2
    ∃ front e back, s.Adds t (front ++ e :: back) ∧
      e.event.handed? = some ("Grinding", [Order.new 7 4 .miner]) ∧
      p.levelAt .miner s front e.time = 6 ∧
      ¬ p.Fits .miner (p.levelAt .miner s front e.time) [Order.new 7 4 .miner] := by
  intro p s t
  have hadds : s.Adds t t.history.reverse := by simp [Session.Adds, s]
  have hk : (t.history.reverse[35]?.bind fun e => e.event.handed?) =
    some ("Grinding", [Order.new 7 4 .miner]) := by decide +kernel
  have hlevel : t.history.reverse[35]?.map (fun e =>
      p.levelAt .miner s (t.history.reverse.take 35) e.time) = some 6 := by decide +kernel
  obtain ⟨e, he, hhanded⟩ := Option.bind_eq_some_iff.1 hk
  have hsplit := exists_split he
  rw [he, Option.map_some, Option.some.injEq] at hlevel
  rw [hsplit] at hadds
  refine ⟨_, e, _, hadds, hhanded, hlevel, ?_⟩
  rw [hlevel]
  rintro ⟨-, g, hbest, horders⟩
  have hmem : g ∈ [(⟨.miner, 1, 7, 4⟩ : Grind), ⟨.miner, 6, 8, 2⟩] := hbest.mem
  have hsix : (6 : UInt32) ≤ g.level :=
    hbest.level_le (k := ⟨.miner, 6, 8, 2⟩) (by decide) (by decide)
  simp only [List.mem_cons, List.not_mem_nil, or_false] at hmem
  rcases hmem with rfl | rfl
  · exact absurd hsix (by decide)
  · exact absurd horders (by decide)

end Plan
end Progression
