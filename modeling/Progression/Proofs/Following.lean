import Mathlib.Data.List.Nodup
import Progression.Cli.Check
import Progression.Proofs.Except
import Progression.Proofs.Files
import Progression.Proofs.Program.Meeting
import Progression.Scenario

/-!
What is reported when a program is checked and followed. `Walked` is the course of the walk through
the programs; along it the reports stay one for each path (`Walk.Sound`) and whatever a reported
program loads is reported as well (`Walk.Closed`). From these, every program that a run can load is
reported, unless a program on the way to it was met at the end of too long a chain, or in a
spelling that does not lead to it (`checkReports_follows`).
-/

namespace Progression

open Progression.Path (key)

/-! ### The same program under different paths -/

namespace Markup

theorem stripBlock_of_ok {source : String} {s body : List Char} {es : List Entity}
    (h : stripBlock source s = .ok (body, es)) (source' : String) :
    stripBlock source' s = .ok (body, es) := by
  unfold stripBlock at h ⊢
  split at h
  · exact h
  · split at h
    · cases h
    · exact h

theorem expand_of_ok {source : String} {s out : List Char} (h : expand source s = .ok out)
    (source' : String) : expand source' s = .ok out := by
  obtain ⟨⟨body, es⟩, hs, h⟩ := Except.bind_eq_ok.1 h
  refine Except.bind_eq_ok.2 ⟨(body, es), stripBlock_of_ok hs source', ?_⟩
  dsimp only at h ⊢
  split at h
  · exact h
  · split at h <;> cases h

theorem read_of_ok {source : String} {s : List Char} {root : Node} (h : read source s = .ok root)
    (source' : String) : read source' s = .ok root := by
  unfold read at h ⊢
  split at h
  · exact h
  · cases h

end Markup

namespace Program

/-- Two readings of one program, in directories of the same key. -/
structure Like (p q : Program) : Prop where
  name : p.name = q.name
  root : p.root = q.root
  steps : p.steps = q.steps
  base : key p.base.toList = key q.base.toList

theorem parse_of_ok {source base text : String} {p : Program} (h : parse source base text = .ok p)
    (source' base' : String) : parse source' base' text = .ok { p with base := base' } := by
  obtain ⟨expanded, hexpand, h⟩ := Except.bind_eq_ok.1 h
  obtain ⟨root, hread, h⟩ := Except.bind_eq_ok.1 h
  cases h
  refine Except.bind_eq_ok.2 ⟨expanded, Markup.expand_of_ok hexpand source', ?_⟩
  exact Except.bind_eq_ok.2 ⟨root, Markup.read_of_ok hread source', rfl⟩

theorem load_eq_ok {files : Tree} {path : String} {p : Program} (h : load files path = .ok p) :
    ∃ text q, files.read path.toList = .ok text ∧
      parse path (String.ofList (Path.directory path.toList)) text = .ok q ∧
      p = { q with path := some path } := by
  unfold load at h
  split at h
  · cases h
  · next text hread =>
    obtain ⟨q, hparse, h⟩ := Except.bind_eq_ok.1 h
    cases h
    exact ⟨text, q, hread, hparse, rfl⟩

theorem like_of_load {files : Tree} {a b : String} {p q : Program}
    (hab : key a.toList = key b.toList) (hp : load files a = .ok p) (hq : load files b = .ok q) :
    p.Like q := by
  obtain ⟨text, p, hread, hparse, rfl⟩ := load_eq_ok hp
  obtain ⟨text', q, hread', hparse', rfl⟩ := load_eq_ok hq
  obtain rfl := Tree.read_eq_of_key hab hread hread'
  have hbase : p.base = String.ofList (Path.directory a.toList) :=
    congrArg base (Except.ok.inj (hparse.symm.trans (parse_of_ok hparse _ _)))
  have hq := parse_of_ok hparse b (String.ofList (Path.directory b.toList))
  rw [hparse'] at hq
  cases hq
  refine ⟨rfl, rfl, rfl, ?_⟩
  simp only [hbase, String.toList_ofList]
  exact Path.key_directory_of_key hab

theorem Like.exists_include {p q : Program} (h : p.Like q) {a : String} (ha : a ∈ p.includes) :
    ∃ b ∈ q.includes, key a.toList = key b.toList := by
  obtain ⟨path, hpath, rfl⟩ := List.mem_map.1 ha
  refine ⟨Path.joined q.base path, List.mem_map_of_mem (h.steps ▸ hpath), ?_⟩
  simp only [Path.joined, String.toList_ofList]
  exact Path.key_join_of_key h.base _

end Program

/-! ### Chains of programs -/

/-- Programs that load each other lead from the first one to a path: those on the way, the last one
first. -/
inductive Leads (files : Tree) (root : String) : List String → String → Prop
  | root : Leads files root [] root
  | load {chain : List String} {a b : String} {p : Program} : Leads files root chain a →
    Program.load files a = .ok p → b ∈ p.includes → Leads files root (a :: chain) b

theorem Leads.of_mem {files : Tree} {root : String} {chain : List String} {path a : String}
    (h : Leads files root chain path) (ha : a ∈ path :: chain) :
    ∃ chain', Leads files root chain' a := by
  induction h with
  | root =>
    obtain rfl := List.mem_singleton.1 ha
    exact ⟨[], .root⟩
  | load hchain hp hb ih =>
    rcases List.mem_cons.1 ha with rfl | ha
    · exact ⟨_, hchain.load hp hb⟩
    · exact ih ha

/-- The paths of the programs that a task loads. -/
def Task.loads : Task → List String
  | .step s => Step.loads s
  | .steps ss => Step.loadsOf ss
  | .rounds _ body _ _ => Step.loadsOf body

namespace Interpreter

variable {σ : Type} {i : Interpreter σ} {root : String}

/-- A call for a part of a program that a chain leads to. -/
def IsWithin (i : Interpreter σ) (root : String) (c : Call σ) : Prop :=
  ∃ chain a p, Leads i.files root chain a ∧ Program.load i.files a = .ok p ∧
    c.depth = chain.length ∧ c.base = p.base ∧ c.task.loads ⊆ Step.loadsOf p.steps

theorem Enters.isWithin {c c' : Call σ} (h : i.Enters c c') (hc : i.IsWithin root c) :
    i.IsWithin root c' := by
  obtain ⟨chain, a, p, hleads, hload, hdepth, hbase, hloads⟩ := hc
  cases h with
  | first =>
    have hbody := List.Subset.trans (List.subset_append_left _ _) hloads
    exact ⟨chain, a, p, hleads, hload, hdepth, hbase, hbody⟩
  | next =>
    have hbody := List.Subset.trans (List.subset_append_right _ _) hloads
    exact ⟨chain, a, p, hleads, hload, hdepth, hbase, hbody⟩
  | loaded hp =>
    rename_i d l base path q r s
    have hb : Path.joined base path ∈ p.includes := by
      rw [show base = p.base from hbase]
      exact List.mem_map_of_mem (hloads (List.mem_singleton.2 rfl))
    refine ⟨a :: chain, _, q, hleads.load hload hb, hp, ?_, rfl, List.Subset.refl _⟩
    exact congrArg (· + 1) hdepth
  | _ => exact ⟨chain, a, p, hleads, hload, hdepth, hbase, hloads⟩

theorem isWithin_of_enters {c c' : Call σ} (h : Relation.ReflTransGen i.Enters c c')
    (hc : i.IsWithin root c) : i.IsWithin root c' := by
  induction h with
  | refl => exact hc
  | tail _ hstep ih => exact hstep.isWithin ih

/-- A run reads a program at a depth only if a chain of that length leads to it. -/
theorem leads_of_opened {p : Program} (hp : Program.load i.files root = .ok p) {r : RunReport}
    {s t : Session σ} {ms : List Mark} {result : Except Halt RunReport}
    (h : i.Ran 0 i.maxDepth p.base (.steps p.steps) r s ms result t) {path : String} {depth : Nat}
    (hm : .opened path depth ∈ ms) : ∃ chain, Leads i.files root chain path ∧
      chain.length = depth := by
  obtain ⟨c, hmet, b, htask, rfl, rfl⟩ := met_of_ran h hm
  obtain ⟨chain, a, q, hleads, hload, hdepth, hbase, hloads⟩ :=
    isWithin_of_enters hmet ⟨[], root, p, .root, hp, rfl, rfl, List.Subset.refl _⟩
  rw [hbase, hdepth]
  refine ⟨a :: chain, hleads.load hload ?_, rfl⟩
  exact List.mem_map_of_mem (hloads (by rw [htask]; exact List.mem_singleton.2 rfl))

end Interpreter

/-! ### Reports -/

namespace Cli

namespace ProgramReport

variable (files : Tree) (r : ProgramReport)

/-- The report on what was loaded from a path. -/
def ofLoad (path : String) (depth : Nat) : Except Error Program → ProgramReport
  | .ok p => .ofProgram path depth p
  | .error e => .failed path depth e.message

/-- A program that was not looked at, at the end of too long a chain. -/
def IsCut (limit : Nat) : Prop :=
  r = .failed r.path (limit + 1) ("include depth exceeds " ++ Number.text limit)

/-- What is reported is what comes of the path: the program that it leads to, or why it leads to
none. -/
def Tells (path : String) : Prop :=
  key r.path.toList = key path.toList ∧ r = .ofLoad r.path r.depth (Program.load files path)

/-- The report stands where the one on this path would have to: a report on a program that was not
looked at, or on another spelling of the path, when only one of the two leads to a program. -/
def Hides (limit : Nat) (path : String) : Prop :=
  key r.path.toList = key path.toList ∧ (r.IsCut limit ∨ r.path ≠ path ∧
    ∀ p q, Program.load files r.path = .ok p → Program.load files path ≠ .ok q)

end ProgramReport

/-! ### The course of a walk -/

namespace Walk

/-- A walk with a report more, on a path that was not met before. -/
def note (w : Walk) (r : ProgramReport) : Walk := { w with seen := r.path :: w.seen }.add r

/-- What becomes of a walk on the way through some paths, with so many levels left of a limit. -/
inductive Walked (files : Tree) (limit : Nat) : Nat → List String → Walk → Walk → Prop
  | done {left w} : Walked files limit left [] w w
  | seen {left path paths w w'} : w.hasSeen path = true → Walked files limit left paths w w' →
    Walked files limit left (path :: paths) w w'
  | cut {path paths w w'} : w.hasSeen path = false →
    Walked files limit 0 paths
      (w.note (.failed path (limit + 1) ("include depth exceeds " ++ Number.text limit))) w' →
    Walked files limit 0 (path :: paths) w w'
  | broken {left path paths w w' e} : w.hasSeen path = false → Program.load files path = .error e →
    Walked files limit (left + 1) paths (w.note (.failed path (limit - left) e.message)) w' →
    Walked files limit (left + 1) (path :: paths) w w'
  | loaded {left path paths w u w' p} : w.hasSeen path = false → Program.load files path = .ok p →
    Walked files limit left p.includes (w.note (.ofProgram path (limit - left) p)) u →
    Walked files limit (left + 1) paths u w' → Walked files limit (left + 1) (path :: paths) w w'

variable {files : Tree} {limit left : Nat} {paths : List String} {w w' : Walk}

theorem each_cons (visit : String → Walk → Walk) (path : String) (paths : List String) (w : Walk) :
    each visit (path :: paths) w = each visit paths
      (if w.hasSeen path then w else visit path { w with seen := path :: w.seen }) := rfl

theorem walked_follow (files : Tree) (limit left : Nat) (paths : List String) (w : Walk) :
    Walked files limit left paths w (follow files limit left paths w) := by
  induction left generalizing paths w with
  | zero =>
    induction paths generalizing w with
    | nil => exact .done
    | cons path paths ih =>
      rw [follow, each_cons, ← follow]
      cases hs : w.hasSeen path with
      | true => exact .seen hs (ih w)
      | false => exact .cut hs (ih _)
  | succ left ihLeft =>
    induction paths generalizing w with
    | nil => exact .done
    | cons path paths ih =>
      rw [follow, each_cons, ← follow]
      cases hs : w.hasSeen path with
      | true => exact .seen hs (ih w)
      | false =>
        rw [if_neg Bool.false_ne_true]
        split
        · next p hp => exact .loaded hs hp (ihLeft _ _) (ih _)
        · next e he => exact .broken hs he (ih _)

theorem hasSeen_iff {path : String} :
    w.hasSeen path = true ↔ ∃ p ∈ w.seen, key p.toList = key path.toList := by
  simp [hasSeen, List.any_eq_true]

theorem Walked.seen_suffix (h : Walked files limit left paths w w') : w.seen <:+ w'.seen := by
  induction h with
  | done => exact List.suffix_refl _
  | seen _ _ ih => exact ih
  | cut _ _ ih => exact (List.suffix_cons _ _).trans ih
  | broken _ _ _ ih => exact (List.suffix_cons _ _).trans ih
  | loaded _ _ _ _ ih ih' => exact (List.suffix_cons _ _).trans (ih.trans ih')

theorem hasSeen_note {r : ProgramReport} : (w.note r).hasSeen r.path = true :=
  hasSeen_iff.2 ⟨r.path, List.mem_cons_self, rfl⟩

theorem hasSeen_mono {path : String} (h : w.seen <:+ w'.seen) (hs : w.hasSeen path = true) :
    w'.hasSeen path = true := by
  obtain ⟨p, hp, hkey⟩ := hasSeen_iff.1 hs
  exact hasSeen_iff.2 ⟨p, h.subset hp, hkey⟩

/-! ### What is reported is so -/

/-- A report on a program that a chain leads to: on what it comes to, or that it was not looked
at. -/
structure Found (files : Tree) (root : String) (limit : Nat) (r : ProgramReport) : Prop where
  chain : ∃ chain, Leads files root chain r.path ∧ chain.length = r.depth ∧
    ((r.path :: chain).map fun a => key a.toList).Nodup
  tells : r.depth ≤ limit ∧ r.Tells files r.path ∨ r.IsCut limit

/-- A walk with one report for each path that was met. -/
structure Sound (files : Tree) (root : String) (limit : Nat) (w : Walk) : Prop where
  seen : w.seen = w.reports.map (·.path)
  once : (w.seen.map fun a => key a.toList).Nodup
  found : ∀ r ∈ w.reports, Found files root limit r

variable {root : String}

theorem Sound.note {r : ProgramReport} (h : w.Sound files root limit)
    (hs : w.hasSeen r.path = false) (hr : Found files root limit r) :
    (w.note r).Sound files root limit := by
  constructor
  · simp only [Walk.note, add, List.map_cons, h.seen]
  · refine List.nodup_cons.2 ⟨?_, h.once⟩
    rw [List.mem_map]
    rintro ⟨p, hp, hkey⟩
    rw [hasSeen_iff.2 ⟨p, hp, hkey⟩] at hs
    cases hs
  · exact List.forall_mem_cons.2 ⟨hr, h.found⟩

/-- A chain whose programs were all met. -/
structure Behind (files : Tree) (root : String) (w : Walk) (chain : List String) (path : String) :
    Prop where
  leads : Leads files root chain path
  nodup : (chain.map fun a => key a.toList).Nodup
  seen : ∀ a ∈ chain, w.hasSeen a = true

theorem Behind.mono {chain : List String} {path : String} (hw : w.seen <:+ w'.seen)
    (h : Behind files root w chain path) : Behind files root w' chain path :=
  ⟨h.leads, h.nodup, fun a ha => hasSeen_mono hw (h.seen a ha)⟩

theorem Behind.nodup_cons {chain : List String} {path : String} (h : Behind files root w chain path)
    (hs : w.hasSeen path = false) : ((path :: chain).map fun a => key a.toList).Nodup := by
  refine List.nodup_cons.2 ⟨?_, h.nodup⟩
  rw [List.mem_map]
  rintro ⟨a, ha, hkey⟩
  obtain ⟨p, hp, hkey'⟩ := hasSeen_iff.1 (h.seen a ha)
  rw [hasSeen_iff.2 ⟨p, hp, hkey'.trans hkey⟩] at hs
  cases hs

/-- A chain goes on through a program that is met on the way. -/
theorem Behind.load {chain : List String} {path b : String} {p : Program} {r : ProgramReport}
    (h : Behind files root w chain path) (hs : w.hasSeen r.path = false) (hr : r.path = path)
    (hp : Program.load files path = .ok p) (hb : b ∈ p.includes) :
    Behind files root (w.note r) (path :: chain) b := by
  subst hr
  refine ⟨h.leads.load hp hb, h.nodup_cons hs, ?_⟩
  intro a ha
  rcases List.mem_cons.1 ha with rfl | ha
  · exact hasSeen_note
  · exact hasSeen_mono (List.suffix_cons _ _) (h.seen a ha)

/-- A walk adds one report for each path that it meets, on what a chain leads to. -/
theorem Walked.sound (h : Walked files limit left paths w w') {chain : List String}
    (hc : ∀ b ∈ paths, Behind files root w chain b) (hlength : chain.length + left = limit + 1)
    (hw : w.Sound files root limit) : w'.Sound files root limit := by
  induction h generalizing chain with
  | done => exact hw
  | seen _ _ ih => exact ih (fun b hb => hc b (List.mem_cons_of_mem _ hb)) hlength hw
  | @cut path paths w w' hs _ ih =>
    have hpath := hc path List.mem_cons_self
    refine ih (fun b hb => (hc b (List.mem_cons_of_mem _ hb)).mono (List.suffix_cons _ _))
      hlength ?_
    refine hw.note hs ⟨⟨chain, hpath.leads, hlength, hpath.nodup_cons hs⟩, .inr rfl⟩
  | @broken left path paths w w' e hs he _ ih =>
    have hpath := hc path List.mem_cons_self
    refine ih (fun b hb => (hc b (List.mem_cons_of_mem _ hb)).mono (List.suffix_cons _ _))
      hlength ?_
    refine hw.note hs ⟨⟨chain, hpath.leads, ?_, hpath.nodup_cons hs⟩, .inl ⟨?_, rfl, ?_⟩⟩
    · show chain.length = limit - left
      omega
    · exact Nat.sub_le ..
    · show _ = ProgramReport.ofLoad path (limit - left) (Program.load files path)
      rw [he]
      rfl
  | @loaded left path paths w u w' p hs hp hwalk hwalk' ih ih' =>
    have hpath := hc path List.mem_cons_self
    refine ih' (fun b hb => ?_) hlength ?_
    · exact (hc b (List.mem_cons_of_mem _ hb)).mono
        ((List.suffix_cons _ _).trans hwalk.seen_suffix)
    · have hbehind : ∀ b ∈ p.includes,
          Behind files root (w.note (.ofProgram path (limit - left) p)) (path :: chain) b :=
        fun b hb => hpath.load hs rfl hp hb
      refine ih hbehind ?_ ?_
      · simp only [List.length_cons]
        omega
      · refine hw.note hs ⟨⟨chain, hpath.leads, ?_, hpath.nodup_cons hs⟩, .inl ⟨?_, rfl, ?_⟩⟩
        · show chain.length = limit - left
          omega
        · exact Nat.sub_le ..
        · show _ = ProgramReport.ofLoad path (limit - left) (Program.load files path)
          rw [hp]
          rfl

/-! ### What a reported program loads is reported -/

/-- Everything that the reported program loads was met. -/
def Closes (files : Tree) (w : Walk) (r : ProgramReport) : Prop :=
  r.failure = none → ∀ p, Program.load files r.path = .ok p → ∀ b ∈ p.includes, w.hasSeen b = true

theorem Closes.mono {r : ProgramReport} (h : Closes files w r) (hw : w.seen <:+ w'.seen) :
    Closes files w' r :=
  fun hr p hp b hb => hasSeen_mono hw (h hr p hp b hb)

/-- A walk meets its paths, and whatever is loaded by the programs that it adds. -/
theorem Walked.closes (h : Walked files limit left paths w w') :
    (∀ b ∈ paths, w'.hasSeen b = true) ∧ ∀ r ∈ w'.reports, r ∈ w.reports ∨ Closes files w' r := by
  induction h with
  | done => exact ⟨nofun, fun r hr => .inl hr⟩
  | seen hs hwalk ih =>
    exact ⟨List.forall_mem_cons.2 ⟨hasSeen_mono hwalk.seen_suffix hs, ih.1⟩, ih.2⟩
  | cut _ hwalk ih =>
    refine ⟨List.forall_mem_cons.2 ⟨hasSeen_mono hwalk.seen_suffix hasSeen_note, ih.1⟩, ?_⟩
    intro r hr
    rcases ih.2 r hr with hr | hr
    · rcases List.mem_cons.1 hr with rfl | hr
      · exact .inr nofun
      · exact .inl hr
    · exact .inr hr
  | broken _ _ hwalk ih =>
    refine ⟨List.forall_mem_cons.2 ⟨hasSeen_mono hwalk.seen_suffix hasSeen_note, ih.1⟩, ?_⟩
    intro r hr
    rcases ih.2 r hr with hr | hr
    · rcases List.mem_cons.1 hr with rfl | hr
      · exact .inr nofun
      · exact .inl hr
    · exact .inr hr
  | @loaded left path paths w u w' p _ hp hwalk hwalk' ih ih' =>
    have hpath : w'.hasSeen path = true :=
      hasSeen_mono (hwalk.seen_suffix.trans hwalk'.seen_suffix)
        (hasSeen_note (r := .ofProgram path (limit - left) p))
    refine ⟨List.forall_mem_cons.2 ⟨hpath, ih'.1⟩, ?_⟩
    intro r hr
    rcases ih'.2 r hr with hr | hr
    · rcases ih.2 r hr with hr | hr
      · rcases List.mem_cons.1 hr with rfl | hr
        · refine .inr fun _ q hq b hb => hasSeen_mono hwalk'.seen_suffix ?_
          have hq : Program.load files path = .ok q := hq
          cases hp.symm.trans hq
          exact ih.1 b hb
        · exact .inl hr
      · exact .inr (hr.mono hwalk'.seen_suffix)
    · exact .inr hr

end Walk

/-! ### Programs that are followed -/

/-- How many programs a chain may load. -/
def followLimit : Nat := ({} : Limits).includeDepth.toNat

/-- What is reported of a program that is followed. -/
structure Followed (files : Tree) (root : String) (reports : List ProgramReport) : Prop where
  /-- No program is reported twice. -/
  once : (reports.map fun r => key r.path.toList).Nodup
  /-- A report gives the length of a chain of different programs that leads to its own. -/
  chain : ∀ r ∈ reports, ∃ chain, Leads files root chain r.path ∧ chain.length = r.depth ∧
    ((r.path :: chain).map fun a => key a.toList).Nodup
  tells : ∀ r ∈ reports, r.depth ≤ followLimit ∧ r.Tells files r.path ∨ r.IsCut followLimit
  /-- Every program that can be loaded is reported, unless something else is reported in its place
  or in the place of a program on the way to it. -/
  covers : ∀ chain path, Leads files root chain path → (∃ r ∈ reports, r.Tells files path) ∨
    ∃ a ∈ path :: chain, ∃ r ∈ reports, r.Hides files followLimit a
  /-- Every program that can be loaded is reported if chains of different programs are short enough
  and no path is spelled in two ways. -/
  complete : (∀ chain path, Leads files root chain path →
      ((path :: chain).map fun a => key a.toList).Nodup → chain.length ≤ followLimit) →
    (∀ chain path chain' path', Leads files root chain path → Leads files root chain' path' →
      key path.toList = key path'.toList → path = path') →
    ∀ chain path, Leads files root chain path → ∃ r ∈ reports, r.Tells files path

theorem ProgramReport.Tells.of_like {files : Tree} {r : ProgramReport} {path : String}
    {p q : Program} (hkey : key r.path.toList = key path.toList) (hr : r.Tells files r.path)
    (hp : Program.load files r.path = .ok p) (hq : Program.load files path = .ok q) :
    r.Tells files path := by
  have hlike := Program.like_of_load hkey hp hq
  refine ⟨hkey, hr.2.trans ?_⟩
  rw [hp, hq]
  simp only [ofLoad, ofProgram, Program.tagCounts, Program.diagnostics, hlike.name, hlike.root,
    hlike.steps]

/-- A report that is so tells of a path with its key, or hides it. -/
theorem ProgramReport.tells_or_hides {files : Tree} {r : ProgramReport} {path : String}
    (hr : r.Tells files r.path ∨ r.IsCut followLimit) (hkey : key r.path.toList = key path.toList) :
    r.Tells files path ∨ r.Hides files followLimit path := by
  rcases hr with hr | hr
  · by_cases hpath : r.path = path
    · exact .inl (hpath ▸ hr)
    · by_cases hboth : ∃ p q, Program.load files r.path = .ok p ∧ Program.load files path = .ok q
      · obtain ⟨p, q, hp, hq⟩ := hboth
        exact .inl (hr.of_like hkey hp hq)
      · exact .inr ⟨hkey, .inr ⟨hpath, fun p q hp hq => hboth ⟨p, q, hp, hq⟩⟩⟩
  · exact .inr ⟨hkey, .inl hr⟩

theorem ProgramReport.exists_load {files : Tree} {r : ProgramReport}
    (hr : r.Tells files r.path ∨ r.IsCut followLimit) (hnone : r.failure = none) :
    ∃ p, Program.load files r.path = .ok p := by
  rcases hr with ⟨-, hr⟩ | hr
  · cases hp : Program.load files r.path with
    | ok p => exact ⟨p, rfl⟩
    | error e =>
      rw [hr, hp] at hnone
      cases hnone
  · rw [hr] at hnone
    cases hnone

/-- Reports on programs, each with what its program loads, cover what chains lead to. -/
theorem covers_of_closed {files : Tree} {root : String} {reports : List ProgramReport}
    (hroot : ∃ r ∈ reports, r.path = root)
    (htells : ∀ r ∈ reports, r.Tells files r.path ∨ r.IsCut followLimit)
    (hclosed : ∀ r ∈ reports, r.failure = none → ∀ p, Program.load files r.path = .ok p →
      ∀ b ∈ p.includes, ∃ r' ∈ reports, key r'.path.toList = key b.toList)
    {chain : List String} {path : String} (h : Leads files root chain path) :
    (∃ r ∈ reports, r.Tells files path) ∨
      ∃ a ∈ path :: chain, ∃ r ∈ reports, r.Hides files followLimit a := by
  have hreported {chain path} (h : ∃ r ∈ reports, key r.path.toList = key path.toList) :
      (∃ r ∈ reports, r.Tells files path) ∨
        ∃ a ∈ path :: chain, ∃ r ∈ reports, r.Hides files followLimit a := by
    obtain ⟨r, hr, hkey⟩ := h
    rcases ProgramReport.tells_or_hides (htells r hr) hkey with h | h
    · exact .inl ⟨r, hr, h⟩
    · exact .inr ⟨path, List.mem_cons_self, r, hr, h⟩
  induction h with
  | root =>
    obtain ⟨r, hr, rfl⟩ := hroot
    exact hreported ⟨r, hr, rfl⟩
  | @load chain a b p _ hp hb ih =>
    rcases ih with ⟨r, hr, hkey, htell⟩ | ⟨c, hc, hhides⟩
    · rw [hp] at htell
      have hnone : r.failure = none := by
        rw [htell]
        rfl
      obtain ⟨q, hq⟩ := ProgramReport.exists_load (htells r hr) hnone
      obtain ⟨b', hb', hsame⟩ := (Program.like_of_load hkey.symm hp hq).exists_include hb
      obtain ⟨r', hr', hkey'⟩ := hclosed r hr hnone q hq b' hb'
      exact hreported ⟨r', hr', hkey'.trans hsame.symm⟩
    · exact .inr ⟨c, List.mem_cons_of_mem _ hc, hhides⟩

/-- Checking a program and following it reports everything that a run of the program can load. -/
theorem checkReports_follows {σ : Type} (i : Interpreter σ) {root : String} {p : Program}
    (hp : Program.load i.files root = .ok p) :
    Followed i.files root (checkReports i.files root p true) ∧
      ∀ s ms result t, i.Ran 0 i.maxDepth p.base (.steps p.steps) {} s ms result t →
        ∀ path depth, .opened path depth ∈ ms →
          ∃ chain, Leads i.files root chain path ∧ chain.length = depth := by
  refine ⟨?_, fun s ms result t h path depth hm => Interpreter.leads_of_opened hp h hm⟩
  let first : ProgramReport := .ofProgram root 0 p
  have hwalk := Walk.walked_follow i.files followLimit followLimit p.includes ⟨[root], [first]⟩
  generalize hw : Walk.follow i.files followLimit followLimit p.includes ⟨[root], [first]⟩ = w
    at hwalk
  have hreports : checkReports i.files root p true = w.reports.reverse := by
    rw [← hw]
    rfl
  have hsound : w.Sound i.files root followLimit := by
    have hbehind : ∀ b ∈ p.includes, Walk.Behind i.files root ⟨[root], [first]⟩ [root] b := by
      refine fun b hb => ⟨.load .root hp hb, by simp, ?_⟩
      simp [Walk.hasSeen]
    refine hwalk.sound hbehind (Nat.add_comm ..) ⟨rfl, by simp, ?_⟩
    · rw [List.forall_mem_singleton]
      refine ⟨⟨[], .root, rfl, by simp⟩, .inl ⟨Nat.zero_le _, rfl, ?_⟩⟩
      show first = ProgramReport.ofLoad root 0 (Program.load i.files root)
      rw [hp]
      rfl
  have hclosed : ∀ r ∈ w.reports, Walk.Closes i.files w r := by
    intro r hr
    rcases hwalk.closes.2 r hr with hr | hr
    · obtain rfl := List.mem_singleton.1 hr
      intro _ q hq b hb
      have hq : Program.load i.files root = .ok q := hq
      cases hp.symm.trans hq
      exact hwalk.closes.1 b hb
    · exact hr
  have htells : ∀ r ∈ w.reports, r.Tells i.files r.path ∨ r.IsCut followLimit :=
    fun r hr => (hsound.found r hr).tells.imp And.right id
  have hcovers : ∀ chain path, Leads i.files root chain path →
      (∃ r ∈ w.reports, r.Tells i.files path) ∨
        ∃ a ∈ path :: chain, ∃ r ∈ w.reports, r.Hides i.files followLimit a := by
    refine fun chain path h => covers_of_closed ?_ htells ?_ h
    · have hroot : root ∈ w.seen := hwalk.seen_suffix.subset List.mem_cons_self
      rw [hsound.seen] at hroot
      exact List.mem_map.1 hroot
    · intro r hr hnone q hq b hb
      obtain ⟨a, ha, hkey⟩ := Walk.hasSeen_iff.1 (hclosed r hr hnone q hq b hb)
      rw [hsound.seen] at ha
      obtain ⟨r', hr', rfl⟩ := List.mem_map.1 ha
      exact ⟨r', hr', hkey⟩
  rw [hreports]
  constructor
  · have honce := hsound.once
    rw [hsound.seen, List.map_map] at honce
    rw [List.map_reverse]
    exact List.nodup_reverse.2 honce
  · intro r hr
    exact (hsound.found r (List.mem_reverse.1 hr)).chain
  · intro r hr
    exact (hsound.found r (List.mem_reverse.1 hr)).tells
  · simpa only [List.mem_reverse] using hcovers
  · intro hshort hspelled chain path h
    simp only [List.mem_reverse]
    refine (hcovers chain path h).resolve_right ?_
    rintro ⟨a, ha, r, hr, hkey, hhides⟩
    obtain ⟨back, hback, hlength, hnodup⟩ := (hsound.found r hr).chain
    rcases hhides with hcut | ⟨hne, -⟩
    · have hdepth : r.depth = followLimit + 1 := by rw [hcut]; rfl
      have hle := hshort back r.path hback hnodup
      omega
    · obtain ⟨back', hback'⟩ := h.of_mem ha
      exact hne (hspelled back r.path back' a hback hback' hkey)

/-- Three programs that load each other, one of them on two ways. -/
theorem checkReports_follows_of_diamond :
    let i : Interpreter Scenario := {
      host := Scenario.host, timing := {}, rounds := 8, limits := {}
      files := { files := [
        (["main"], "<P><LoadProfile Path='a'/><LoadProfile Path='b'/></P>"),
        (["a"], "<P><Name>A</Name><LoadProfile Path='b'/></P>"),
        (["b"], "<P><Log>b</Log><LoadProfile Path='main'/></P>")] } }
    ∃ p, Program.load i.files "main" = .ok p ∧
      Followed i.files "main" (checkReports i.files "main" p true) ∧
      ∀ s ms result t, i.Ran 0 i.maxDepth p.base (.steps p.steps) {} s ms result t →
        ∀ path depth, .opened path depth ∈ ms →
          ∃ chain, Leads i.files "main" chain path ∧ chain.length = depth := by
  intro i
  have hloads : (Program.load i.files "main").toOption.isSome = true := by decide +kernel
  cases hp : Program.load i.files "main" with
  | error => simp [hp, Except.toOption] at hloads
  | ok p => exact ⟨p, rfl, checkReports_follows i hp⟩

/-- A program is reported as too deep that the first one loads itself: the walk comes to it at the
end of a chain of seventeen programs first. -/
theorem checkReports_hides_program :
    let name (n : Nat) : String := String.ofList (List.replicate n 'c')
    let load (n : Nat) : String := "<LoadProfile Path='" ++ name n ++ "'/>"
    let files : Tree := { files :=
      ([name 1], "<P>" ++ load 2 ++ load 18 ++ "</P>") :: ([name 18], "<P/>") ::
        (List.range 16).map fun k => ([name (k + 2)], "<P>" ++ load (k + 3) ++ "</P>") }
    ∃ p q, Program.load files (name 1) = .ok p ∧ Program.load files (name 18) = .ok q ∧
      name 18 ∈ p.includes ∧
      ((checkReports files (name 1) p true).filter (·.path = name 18)).map (·.failure) =
        [some "include depth exceeds 16"] := by
  intro name load files
  have hfirst : (Program.load files (name 1)).toOption.map (fun p => (p.includes,
      ((checkReports files (name 1) p true).filter (·.path = name 18)).map (·.failure))) =
      some ([name 2, name 18], [some "include depth exceeds 16"]) := by decide +kernel
  have hlast : (Program.load files (name 18)).toOption.isSome = true := by decide +kernel
  clear_value files
  cases hp : Program.load files (name 1) with
  | error => simp [hp, Except.toOption] at hfirst
  | ok p =>
    cases hq : Program.load files (name 18) with
    | error => simp [hq, Except.toOption] at hlast
    | ok q =>
      rw [hp] at hfirst
      obtain ⟨hincludes, hreports⟩ := Prod.mk.inj (Option.some.inj hfirst)
      refine ⟨p, q, rfl, rfl, ?_, hreports⟩
      rw [hincludes]
      exact List.mem_cons_of_mem _ List.mem_cons_self

end Cli
end Progression
