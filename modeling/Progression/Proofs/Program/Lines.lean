import Progression.Proofs.Markup.Lookup
import Progression.Proofs.Markup.Tracing
import Progression.Proofs.Program.Diagnosis

/-!
Lines of programs. Reading puts the line of its `<` into every element; the places of these in a
text are told by the grammar (`DocumentPlaces`). Where no entity has a line break in its value, the
line is that of the place which the `<` stems from before entities are expanded
(`keepsLines_of_parse`); steps and remarks have the lines of their elements.
-/

namespace Progression

open Progression.Markup Progression.Text

namespace Markup

/-! ### Places of elements -/

/-- A piece of the content of an element that is no element. -/
inductive PassedForm : List Char → Prop
  | run {raw : List Char} : '<' ∉ raw → PassedForm raw
  | data {body : List Char} : ¬ "]]>".toList <:+: body →
    PassedForm ("<![CDATA[".toList ++ (body ++ "]]>".toList))
  | aside {a : List Char} : AsideForm a → PassedForm a

mutual

/-- The places at which an element and the elements in it begin, each before those in it, if the
element begins at a place. -/
inductive ElementPlaces : Nat → Node → List Char → List Nat → Prop
  | closed {k : Nat} {n : Node} {s : List Char} : HeadForm n.tag n.attributes s → n.children = [] →
    ElementPlaces k n (s ++ ['/', '>']) [k]
  | opened {k : Nat} {n : Node} {s body e : List Char} {ks : List Nat} :
    HeadForm n.tag n.attributes s →
    ContentPlaces (k + (s ++ ['>']).length) n.children body ks → ClosingForm n.tag e →
    ElementPlaces k n (s ++ '>' :: (body ++ e)) (k :: ks)

/-- The places at which the elements in a content begin. -/
inductive ContentPlaces : Nat → List Node → List Char → List Nat → Prop
  | nil {k : Nat} : ContentPlaces k [] [] []
  | passed {k : Nat} {ns : List Node} {raw s : List Char} {ks : List Nat} : PassedForm raw →
    ContentPlaces (k + raw.length) ns s ks → ContentPlaces k ns (raw ++ s) ks
  | child {k : Nat} {n : Node} {ns : List Node} {raw s : List Char} {js ks : List Nat} :
    ElementPlaces k n raw js → ContentPlaces (k + raw.length) ns s ks →
    ContentPlaces k (n :: ns) (raw ++ s) (js ++ ks)

end

/-- The places at which the elements of a document begin. -/
inductive DocumentPlaces (n : Node) : List Char → List Nat → Prop
  | mk {a s b : List Char} {ks : List Nat} : AroundForm a → ElementPlaces a.length n s ks →
    AroundForm b → DocumentPlaces n (a ++ (s ++ b)) ks

/-- An element begins at a place of a text, and has its line. -/
def StandsAt (out : List Char) (n : Node) (k : Nat) : Prop :=
  out[k]? = some '<' ∧ n.line = lineAt out k

theorem standsAt_of_headForm {line : Nat} {n : Node} {pre s : List Char}
    (hs : HeadForm n.tag n.attributes s) (hl : n.line = line) (hpre : line = lineAfter pre)
    (post : List Char) : StandsAt (pre ++ (s ++ post)) n pre.length := by
  refine ⟨?_, ?_⟩
  · cases hs
    simp
  · rw [lineAt, List.take_left, hl, hpre]

theorem lineAfter_append (s t : List Char) : lineAfter (s ++ t) = lineAfter s + t.count '\n' := by
  rw [lineAfter, lineAfter, List.count_append, Nat.add_assoc]

mutual

/-- The elements of the grammar have the lines of their places. -/
theorem ElementForm.exists_places {line : Nat} {n : Node} {s : List Char} :
    ElementForm line n s → ∀ pre post : List Char, line = lineAfter pre →
      ∃ ks, ElementPlaces pre.length n s ks ∧
        List.Forall₂ (StandsAt (pre ++ (s ++ post))) n.all ks
  | @ElementForm.closed _ n s hs hl _ hn => by
    intro pre post hpre
    refine ⟨_, .closed hs hn, ?_⟩
    have hself := standsAt_of_headForm hs hl hpre (['/', '>'] ++ post)
    obtain ⟨tag, attributes, text, children, l⟩ := n
    cases hn
    rw [Node.all, Node.allOf, List.append_assoc]
    exact .cons hself .nil
  | @ElementForm.opened _ n s _ body e hs hl hb _ he => by
    intro pre post hpre
    obtain ⟨ks, hks, hall⟩ := hb.exists_places (pre ++ (s ++ ['>'])) (e ++ post)
      (by rw [lineAfter_append, ← hpre])
    rw [List.length_append] at hks
    refine ⟨_, .opened hs hks he, ?_⟩
    have hself := standsAt_of_headForm hs hl hpre ('>' :: (body ++ e) ++ post)
    have hassoc : pre ++ (s ++ '>' :: (body ++ e) ++ post) =
      pre ++ (s ++ ['>']) ++ (body ++ (e ++ post)) := by simp
    rw [← List.append_assoc s] at hself
    rw [← hassoc] at hall
    obtain ⟨tag, attributes, text, children, l⟩ := n
    exact .cons hself hall

theorem ContentForm.exists_places {line : Nat} {t : List Char} {ns : List Node} {s : List Char} :
    ContentForm line t ns s → ∀ pre post : List Char, line = lineAfter pre →
      ∃ ks, ContentPlaces pre.length ns s ks ∧
        List.Forall₂ (StandsAt (pre ++ (s ++ post))) (Node.allOf ns) ks
  | .nil => fun _ _ _ => ⟨[], .nil, .nil⟩
  | @ContentForm.run _ raw _ _ _ _ hlt _ hs => by
    intro pre post hpre
    obtain ⟨ks, hks, hall⟩ := hs.exists_places (pre ++ raw) post (by rw [lineAfter_append, ← hpre])
    rw [List.length_append] at hks
    exact ⟨ks, .passed (.run hlt) hks, by simpa using hall⟩
  | @ContentForm.data _ _ raw _ _ _ hbody hraw hs => by
    intro pre post hpre
    obtain ⟨ks, hks, hall⟩ := hs.exists_places (pre ++ raw) post (by rw [lineAfter_append, ← hpre])
    rw [List.length_append] at hks
    exact ⟨ks, .passed (hraw ▸ .data hbody) hks, by simpa using hall⟩
  | @ContentForm.aside _ a _ _ _ ha hs => by
    intro pre post hpre
    obtain ⟨ks, hks, hall⟩ := hs.exists_places (pre ++ a) post (by rw [lineAfter_append, ← hpre])
    rw [List.length_append] at hks
    exact ⟨ks, .passed (.aside ha) hks, by simpa using hall⟩
  | @ContentForm.child _ n raw _ s _ hn hs => by
    intro pre post hpre
    obtain ⟨js, hjs, hself⟩ := hn.exists_places pre (s ++ post) hpre
    obtain ⟨ks, hks, hall⟩ := hs.exists_places (pre ++ raw) post (by rw [lineAfter_append, ← hpre])
    rw [List.length_append] at hks
    refine ⟨_, .child hjs hks, ?_⟩
    rw [← List.append_assoc raw] at hself
    rw [List.append_assoc pre, ← List.append_assoc raw] at hall
    exact List.rel_append hself hall

end

theorem exists_places_of_document {out : List Char} {root : Node} (h : document out = .ok root) :
    ∃ ks, DocumentPlaces root out ks ∧ List.Forall₂ (StandsAt out) root.all ks := by
  cases document_eq_ok_iff.1 h with
  | @mk a s b ha hs hb =>
    obtain ⟨ks, hks, hall⟩ := hs.exists_places a b rfl
    exact ⟨ks, .mk ha hks hb, hall⟩

end Markup

/-! ### Lines of steps -/

namespace Step

/-- The line that a step keeps of its element. -/
def line? : Step → Option Nat
  | unknown _ line => some line
  | invalid _ line _ => some line
  | _ => none

mutual

/-- A step and the steps in its body, each before those in its own. -/
def all : Step → List Step
  | branch condition body => branch condition body :: allOf body
  | loop condition body => loop condition body :: allOf body
  | block body => block body :: allOf body
  | step => [step]

def allOf : List Step → List Step
  | [] => []
  | s :: ss => all s ++ allOf ss

end

theorem mem_all_of_spelled {body : List Step} {step s : Step} (h : Spelled body step)
    (hs : s ∈ all step) : s = step ∨ s ∈ allOf body := by
  cases h with
  | leaf hleaf =>
    cases step with
    | branch => exact absurd hleaf id
    | loop => exact absurd hleaf id
    | block => exact absurd hleaf id
    | _ => exact .inl (List.mem_singleton.1 hs)
  | load => exact .inl (List.mem_singleton.1 hs)
  | branch => exact List.mem_cons.1 hs
  | loop => exact List.mem_cons.1 hs
  | block => exact List.mem_cons.1 hs

mutual

/-- Every step in the step of an element is the step of an element in it. -/
theorem exists_of_mem_all : ∀ (n : Node) {s : Step}, s ∈ all (ofNode n) → ∃ m ∈ n.all, s = ofNode m
  | ⟨tag, attributes, text, children, line⟩, s, hs => by
    have hself : ⟨tag, attributes, text, children, line⟩ ∈
        Node.all ⟨tag, attributes, text, children, line⟩ := by simp [Node.all]
    cases hb : build ⟨tag, attributes, text, children, line⟩ (ofNodes children) with
    | error reason =>
      rw [ofNode, hb] at hs
      refine ⟨_, hself, ?_⟩
      rw [ofNode, hb]
      exact List.mem_singleton.1 hs
    | ok step =>
      rw [ofNode, hb] at hs
      rcases mem_all_of_spelled (spelled_of_build hb) hs with rfl | hs
      · exact ⟨_, hself, by rw [ofNode, hb]⟩
      · obtain ⟨m, hm, rfl⟩ := exists_of_mem_allOf children hs
        exact ⟨m, by simp [Node.all, hm], rfl⟩

theorem exists_of_mem_allOf :
    ∀ (ns : List Node) {s : Step}, s ∈ allOf (ofNodes ns) → ∃ m ∈ Node.allOf ns, s = ofNode m
  | [], _, hs => by cases hs
  | n :: ns, s, hs => by
    rw [ofNodes, allOf] at hs
    rcases List.mem_append.1 hs with hs | hs
    · obtain ⟨m, hm, rfl⟩ := exists_of_mem_all n hs
      exact ⟨m, List.mem_append_left _ hm, rfl⟩
    · obtain ⟨m, hm, rfl⟩ := exists_of_mem_allOf ns hs
      exact ⟨m, List.mem_append_right _ hm, rfl⟩

end

theorem line?_of_interactionOf {n : Node} {kind : Interaction} {step : Step}
    (h : interactionOf n kind = .ok step) : step.line? = none := by
  simp only [interactionOf, bind, Except.bind] at h
  repeat (split at h; · cases h)
  cases h
  rfl

/-- A step that keeps a line is an unknown one, or its element is faulty. -/
theorem line?_of_build {n : Node} {body : List Step} {step : Step} (h : build n body = .ok step) :
    step.line? = none ∨ step = .unknown n.tag n.line := by
  simp only [build, bind, Except.bind] at h
  split at h
  case h_3 =>
    split at h
    · cases h; exact .inl rfl
    · split at h <;> cases h
      exact .inl rfl
  case h_4 =>
    split at h
    · cases h
    · split at h <;> cases h
      exact .inl rfl
  case h_5 =>
    split at h
    · cases h
    · split at h <;> cases h
      exact .inl rfl
  case h_8 => exact .inl (line?_of_interactionOf h)
  case h_9 => exact .inl (line?_of_interactionOf h)
  case h_10 => exact .inl (line?_of_interactionOf h)
  case h_11 => cases h; exact .inl rfl
  case h_12 => cases h; exact .inl rfl
  case h_13 =>
    split at h <;> cases h
    · exact .inl rfl
    · exact .inr rfl
  -- one attribute is read, or the wait
  all_goals
    split at h <;> cases h
    exact .inl rfl

theorem line_of_ofNode {n : Node} {line : Nat} (h : (ofNode n).line? = some line) :
    line = n.line := by
  obtain ⟨tag, attributes, text, children, l⟩ := n
  cases hb : build ⟨tag, attributes, text, children, l⟩ (ofNodes children) with
  | error reason =>
    rw [ofNode, hb] at h
    exact (Option.some.inj h).symm
  | ok step =>
    rw [ofNode, hb] at h
    rcases line?_of_build hb with hnone | rfl
    · cases hnone.symm.trans h
    · exact (Option.some.inj h).symm

end Step

/-! ### Lines of programs -/

/-- The line of an element whose tag begins at a place of the expanded text is the line in the text
of the place that this tag stems from: the tag stands there, or the reference that it comes with. -/
def HasLine (text : List Char) (n : Node) (k : Nat) : Prop :=
  ∃ i, (Parts.of text).trace[k]? = some ('<', i) ∧ (Parts.of text).StemsFrom '<' i ∧
    n.line = lineAt text i

/-- A program has the lines of its text, which is expanded to another. -/
structure KeepsLines (text out : List Char) (p : Program) : Prop where
  expansion : ExpandsByLine text out
  /-- The trace is the expanded text with the places in the text. -/
  trace : Traced.text (Parts.of text).trace = out
  nodes : ∃ ks, DocumentPlaces p.root out ks ∧ List.Forall₂ (HasLine text) p.root.all ks
  steps : ∀ s ∈ Step.allOf p.steps, ∃ n ∈ Node.allOf p.root.children, s = Step.ofNode n ∧
    ∀ line, s.line? = some line → line = n.line
  diagnostics : ∀ d ∈ p.diagnostics, ∃ n ∈ Node.allOf p.root.children, d ∈ n.lint ∧
    d.line = n.line

namespace Program

/-- **Lines survive expansion.** Where no entity that counts has a line break in its value, the text
of a program that is loaded is expanded line by line, and its elements, steps and remarks have the
lines of the text, from before it is expanded. -/
theorem keepsLines_of_parse {source base text : String} {p : Program}
    (h : parse source base text = .ok p) (hv : OneLine (Parts.of text.toList).entities) :
    ∃ out, expand source text.toList = .ok out ∧ KeepsLines text.toList out p := by
  obtain ⟨out, root, hout, hroot, rfl⟩ := parse_eq_ok_iff.1 h
  obtain ⟨ks, hplaces, hks⟩ := exists_places_of_document hroot
  refine ⟨out, hout, expandsByLine hout hv, text_trace_of_expand hout,
    ⟨ks, hplaces, hks.imp fun n k hk => ?_⟩, fun s hs => ?_, fun d hd => ?_⟩
  · obtain ⟨hlt, hline⟩ := hk
    obtain ⟨i, hi, hstems, hat⟩ := exists_stemsFrom hout hv hlt (by decide)
    exact ⟨i, hi, hstems, hline.trans hat.symm⟩
  · obtain ⟨n, hn, rfl⟩ := Step.exists_of_mem_allOf _ hs
    exact ⟨n, hn, rfl, fun line hline => Step.line_of_ofNode hline⟩
  · obtain ⟨n, hn, hlint⟩ := List.mem_flatMap.1 hd
    obtain ⟨message, -, rfl⟩ := List.mem_map.1 hlint
    exact ⟨n, hn, hlint, rfl⟩

/-- A block over four lines declares a value with a tag and a value for an attribute in it; the
element that a reference on the fifth line gives is on that line. -/
theorem keepsLines_of_parse_nested :
    let text := "<!DOCTYPE P [\n  <!ENTITY sit \"<Sit who='&you;'/>\">\n  <!ENTITY you 'me'>\n]>" ++
      "<P>\n  <!-- a -->&sit;\n  <Stand\n/></P>"
    OneLine (Parts.of text.toList).entities ∧ ∃ p, parse "test" "" text = .ok p ∧
      (∃ out, expand "test" text.toList = .ok out ∧ KeepsLines text.toList out p) ∧
      p.root.all.map (fun n => (n.tag, n.line)) = [("P", 4), ("Sit", 5), ("Stand", 6)] := by
  intro text
  have hes : (Parts.of text.toList).entities =
      [("sit".toList, "<Sit who='&you;'/>".toList), ("you".toList, "me".toList)] := by
    decide +kernel
  have hv : OneLine (Parts.of text.toList).entities := by
    rw [hes]
    exact oneLine_of_forall (by decide)
  obtain ⟨p, hp, hlines⟩ := Except.exists_eq_ok_and (x := parse "test" "" text)
    (p := fun p => decide (p.root.all.map (fun n => (n.tag, n.line)) =
      [("P", 4), ("Sit", 5), ("Stand", 6)])) (by decide +kernel)
  exact ⟨hv, p, hp, keepsLines_of_parse hp hv, of_decide_eq_true hlines⟩

end Program
end Progression
