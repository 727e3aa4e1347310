import Progression.Proofs.Leveling.Ascent
import Progression.Scenario

/-!
The leveling of a class ends where its level only rises. The loop counts nothing: a round that goes
on has read a level other than the one it was begun at, so the levels at which rounds are begun rise
strictly, and there are no more of them than levels between the first one and the goal. A round that
stops says why, and nothing else does, so the loop never uses up its rounds.
-/

namespace Progression

variable {σ : Type}

/-- Numbers that rise strictly between two bounds are no more than lie between them. -/
theorem length_le_of_pairwise_lt {ns : List UInt32} {a : Nat} {b : UInt32}
    (hlt : ns.Pairwise (· < ·)) (ha : ∀ n ∈ ns, a ≤ n.toNat) (hb : ∀ n ∈ ns, n < b) :
    ns.length ≤ b.toNat - a := by
  induction ns generalizing a with
  | nil => exact Nat.zero_le _
  | cons n ns ih =>
    rw [List.pairwise_cons] at hlt
    have hn : a ≤ n.toNat := ha n (by simp)
    have hnb : n.toNat < b.toNat := UInt32.lt_iff_toNat_lt.1 (hb n (by simp))
    have hns : ns.length ≤ b.toNat - (n.toNat + 1) := by
      refine ih hlt.2 (fun m hm => ?_) fun m hm => hb m (by simp [hm])
      exact UInt32.lt_iff_toNat_lt.1 (hlt.1 m hm)
    rw [List.length_cons]
    omega

theorem reads_asked (j : Job) (time : Nat) (level : UInt32) (es : List Entry) :
    reads j (⟨time, .asked (.level j) level⟩ :: es) = level :: reads j es := by
  simp [reads, Event.read?]

namespace LevelRound

variable {j : Job} {r : LevelRound} {rs : List LevelRound}

theorem reads_all : reads j (r.all j) = r.level :: reads j r.entries := reads_asked j _ _ _

theorem level_mem_reads (h : r ∈ rs) : r.level ∈ reads j (rs.flatMap (·.all j)) := by
  unfold reads
  rw [List.mem_filterMap]
  refine ⟨⟨r.time, .asked (.level j) r.level⟩, List.mem_flatMap.2 ⟨r, h, ?_⟩, ?_⟩
  · exact List.mem_cons_self
  · simp [Event.read?]

end LevelRound

namespace Plan

variable (p : Plan σ) (j : Job)

section Ascents

variable {p j} {goal : UInt32} {n : Nat} {s t : Session σ} {rs : List LevelRound}
  {last : List Entry} {result : Except Halt LevelingOutcome}

/-- Where the level is never read lower than before, each round is begun at a higher level. -/
theorem Ascent.rises (h : p.Ascent j goal n s rs last result t)
    (hup : (reads j (rs.flatMap (·.all j) ++ last)).Pairwise (· ≤ ·)) :
    (rs.map (·.level)).Pairwise (· < ·) := by
  induction h with
  | calledOff => exact .nil
  | exhausted => exact .nil
  | reached => exact .nil
  | stopped => exact List.pairwise_singleton _ _
  | ended => exact List.pairwise_singleton _ _
  | @goesOn n s r u v rs last result t hb hround ha ih =>
    rw [List.flatMap_cons, List.append_assoc, reads_append, LevelRound.reads_all, List.cons_append,
      List.pairwise_cons, List.pairwise_append] at hup
    obtain ⟨hfirst, -, hrest, hcross⟩ := hup
    rw [List.map_cons, List.pairwise_cons]
    refine ⟨?_, ih hrest⟩
    intro level hlevel
    obtain ⟨r', hr', rfl⟩ := List.mem_map.1 hlevel
    have hmem : r'.level ∈ reads j (rs.flatMap (·.all j) ++ last) := by
      rw [reads_append]
      exact List.mem_append_left _ (LevelRound.level_mem_reads hr')
    -- The round went on because it read another level last. That one is no lower than the one it was
    -- begun at, and nothing that is read later is lower still.
    cases hround.ends with
    | @moved after _ _ hlast hne =>
      have hafter : after ∈ reads j r.entries := List.mem_of_getLast? hlast
      have h₁ : r.level ≤ after := hfirst after (List.mem_append_left _ hafter)
      have h₂ : after ≤ r'.level := hcross after hafter r'.level hmem
      exact UInt32.lt_of_lt_of_le (UInt32.lt_of_le_of_ne h₁ hne.symm) h₂

end Ascents

/-- The leveling of a class from a level on, where the level only rises. -/
structure Rises (start : UInt32) (lead : List Entry) (rs : List LevelRound) (last : List Entry)
    (result : Except Halt ClassRun) (t : Session σ) : Prop where
  /-- Nothing is handed over before the first round and after the last one. -/
  idle : Hands noOrders lead ∧ Hands noOrders last
  /-- A round hands over an order for what an objective asks for at most, and then the order of an
  entry at most. -/
  parts : ∀ r ∈ rs, ∃ fs gs, r.entries = fs ++ gs ∧ Hands (p.IsDeliverable j) fs ∧
    Hands (p.IsGrind j r.level) gs
  range : ∀ r ∈ rs, start ≤ r.level ∧ r.level < p.goals.target j
  marks : rounds (lead ++ rs.flatMap (·.all j) ++ last) = rs.map (·.level)
  climbs : (rs.map (·.level)).Pairwise (· < ·)
  bounded : rs.length ≤ (p.goals.target j).toNat - start.toNat
  returns : ∀ run, result = .ok run → run.startLevel = start ∧ run.iterations = rs.length
  /-- It stops only when it is called off, or when a meeting or a change of class does not come to
  its end. -/
  halts : ∀ e, result = .error e → p.Halts t e

section Climbs

variable {p j} {phase : Phase} {s t : Session σ} {start : UInt32} {lead last : List Entry}
  {rs : List LevelRound}

/-- The levels at which rounds are begun lie between the first level that is read and the goal. -/
theorem Ascent.rises_between {n : Nat} {outcome : Except Halt LevelingOutcome}
    (h : p.Ascent j (p.goals.target j) n s rs last outcome t)
    (hup : (start :: reads j (rs.flatMap (·.all j) ++ last)).Pairwise (· ≤ ·)) :
    (rs.map (·.level)).Pairwise (· < ·) ∧ (∀ r ∈ rs, start ≤ r.level) ∧
      rs.length ≤ (p.goals.target j).toNat - start.toNat := by
  rw [List.pairwise_cons] at hup
  have hclimbs := h.rises hup.2
  have hstart : ∀ r ∈ rs, start ≤ r.level := by
    intro r hr
    refine hup.1 r.level ?_
    rw [reads_append]
    exact List.mem_append_left _ (LevelRound.level_mem_reads hr)
  refine ⟨hclimbs, hstart, ?_⟩
  have hlength := length_le_of_pairwise_lt (a := start.toNat) (b := p.goals.target j) hclimbs
    (List.forall_mem_map.2 fun r hr => UInt32.le_iff_toNat_le.1 (hstart r hr))
    (List.forall_mem_map.2 fun r hr => (h.isRound hr).1)
  rwa [List.length_map] at hlength

theorem Prepares.rises {u : Session σ} (h : p.Prepares j s start lead (.ok true) u)
    (last' : List Entry)
    (hup : (reads j (lead ++ rs.flatMap (·.all j) ++ (last ++ last'))).Pairwise (· ≤ ·)) :
    (start :: reads j (rs.flatMap (·.all j) ++ last)).Pairwise (· ≤ ·) := by
  obtain ⟨es, rfl⟩ := h.starts
  have heq : reads j (⟨s.now, .asked (.level j) start⟩ :: es ++ rs.flatMap (·.all j) ++
      (last ++ last')) =
      start :: (reads j es ++ (reads j (rs.flatMap (·.all j) ++ last) ++ reads j last')) := by
    simp only [List.cons_append, reads_asked, reads_append, List.append_assoc]
  rw [heq] at hup
  refine hup.sublist (List.Sublist.cons_cons start ?_)
  exact (List.sublist_append_left _ _).trans (List.sublist_append_right _ _)

section

variable {result : Except Halt ClassRun}

theorem Climb.rises_between (h : p.Climb j phase s start lead rs last result t)
    (hup : (reads j (lead ++ rs.flatMap (·.all j) ++ last)).Pairwise (· ≤ ·)) :
    (rs.map (·.level)).Pairwise (· < ·) ∧ (∀ r ∈ rs, start ≤ r.level) ∧
      rs.length ≤ (p.goals.target j).toNat - start.toNat := by
  have hnil : (([] : List LevelRound).map (·.level)).Pairwise (· < ·) ∧
      (∀ r ∈ ([] : List LevelRound), start ≤ r.level) ∧
      ([] : List LevelRound).length ≤ (p.goals.target j).toNat - start.toNat := by simp
  cases h with
  | settled => exact hnil
  | hindered => exact hnil
  | broken => exact hnil
  | stopped hp ha => exact ha.rises_between (hp.rises [] (by rwa [List.append_nil]))
  | ended hp ha => exact ha.rises_between (hp.rises _ hup)

theorem Climb.returns (h : p.Climb j phase s start lead rs last result t) {run : ClassRun}
    (hr : result = .ok run) : run.startLevel = start ∧ run.iterations = rs.length := by
  cases h with
  | settled => cases hr; exact ⟨rfl, rfl⟩
  | hindered => cases hr; exact ⟨rfl, rfl⟩
  | broken => cases hr
  | stopped => cases hr
  | ended => cases hr; exact ⟨rfl, rfl⟩

/-- The first round is begun above level zero, so the rounds are not used up by as many as there are
levels up to the goal. -/
theorem Climb.halts_of_bounded (h : p.Climb j phase s start lead rs last result t)
    (hrounds : (p.goals.target j).toNat ≤ p.rounds)
    (hbounded : rs.length ≤ (p.goals.target j).toNat - start.toNat) {e : Halt}
    (he : result = .error e) : p.Halts t e := by
  cases h with
  | settled => cases he
  | hindered => cases he
  | broken hp => cases he; exact hp.directed.halts e rfl
  | stopped hp ha =>
    cases he
    have hstart : 0 < start.toNat :=
      Nat.pos_of_ne_zero fun h => hp.unlocked (UInt32.toNat_inj.1 h)
    have hgoal : start.toNat < (p.goals.target j).toNat := UInt32.lt_iff_toNat_lt.1 hp.below
    refine (ha.halts rfl).resolve_right fun ⟨_, hn⟩ => ?_
    omega
  | ended => cases he

theorem Climb.rises (h : p.Climb j phase s start lead rs last result t)
    (hrounds : (p.goals.target j).toNat ≤ p.rounds)
    (hup : (reads j (lead ++ rs.flatMap (·.all j) ++ last)).Pairwise (· ≤ ·)) :
    p.Rises j start lead rs last result t := by
  obtain ⟨hclimbs, hstart, hbounded⟩ := h.rises_between hup
  exact {
    idle := h.hands
    parts := fun r hr => (h.parts hr).2
    range := fun r hr => ⟨hstart r hr, (h.parts hr).1⟩
    marks := h.rounds_eq
    climbs := hclimbs
    bounded := hbounded
    returns := fun _ hr => h.returns hr
    halts := fun _ he => h.halts_of_bounded hrounds hbounded he }

end

end Climbs

/-- The leveling of a class ends where its level is never read lower than before: after no more
rounds than there are levels from the first one that is read to the goal, each of them begun at a
higher level than the one before. -/
theorem levelClass_terminates {phase : Phase} {s t : Session σ} {es : List Entry}
    {result : Except Halt ClassRun} (hrounds : (p.goals.target j).toNat ≤ p.rounds)
    (hgo : (p.levelClass phase j).go s = (result, t)) (hadds : s.Adds t es)
    (hup : (reads j es).Pairwise (· ≤ ·)) :
    ∃ start lead rs last, start = p.host.sees s (.level j) ∧
      es = lead ++ rs.flatMap (·.all j) ++ last ∧ p.Rises j start lead rs last result t := by
  obtain ⟨start, result', t', lead, rs, last, hgo', hseen, hclimb⟩ := p.climb_of_levelClass j phase s
  rw [hgo] at hgo'
  cases hgo'
  cases hadds.unique hclimb.works.adds
  exact ⟨start, lead, rs, last, hseen, rfl, hclimb.rises hrounds hup⟩

/-- A miner who gets from 5 to 8 in two rounds, with an objective in the first of them. -/
theorem levelClass_terminates_of_miner :
    let p : Plan Scenario := {
      host := Scenario.host, timing := {}, rounds := 100
      tables := {
        grinds := [⟨.miner, 1, 7, 4⟩]
        objectives := [(.miner, [{
          id := 9000, level := 1, actor := 500, zone := 129, place := .origin
          deliverable := 12, count := 2 }])] }
      goals := { gatherers := 8 } }
    let s : Session Scenario := { world := {
      levels := [(.miner, 5)], gain := 1
      reactions := [
        ⟨.interact 500, [.grant 9000, .opens .journalResult], some 1⟩,
        ⟨.advance .journalResult, [.complete 9000], some 1⟩] } }
    let t := ((p.levelClass .levelGatherers .miner).go s).2
    (p.goals.target .miner).toNat ≤ p.rounds ∧ (reads .miner t.history.reverse).Pairwise (· ≤ ·) ∧
      ∃ start lead rs last, start = p.host.sees s (.level .miner) ∧
        t.history.reverse = lead ++ rs.flatMap (·.all .miner) ++ last ∧
        p.Rises .miner start lead rs last
          (.ok ⟨.miner, .levelGatherers, 5, 8, 2, .reached 8⟩) t := by
  intro p s t
  have hrounds : (p.goals.target .miner).toNat ≤ p.rounds := by decide
  have hresult : ((p.levelClass .levelGatherers .miner).go s).1 =
      .ok ⟨.miner, .levelGatherers, 5, 8, 2, .reached 8⟩ := by decide +kernel
  have hadds (t : Session Scenario) : s.Adds t t.history.reverse := by simp [Session.Adds, s]
  have hup : (reads .miner t.history.reverse).Pairwise (· ≤ ·) := by decide +kernel
  exact ⟨hrounds, hup,
    p.levelClass_terminates .miner hrounds (Act.go_eq_of_fst hresult) (hadds t) hup⟩

end Plan
end Progression
