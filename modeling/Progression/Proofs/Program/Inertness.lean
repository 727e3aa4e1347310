import Progression.Proofs.Markup.Insertion
import Progression.Proofs.Markup.Parting
import Progression.Proofs.Program.Diagnosis

/-!
Comments and sections of plain character data in programs. Entities are expanded before markup is
read, without regard to either; what they leave of a comment changes a program in its lines only,
and what they leave of a section is text as it stands (`parse_of_inserted`).
-/

namespace Progression

open Progression.Markup Progression.Text

/-! ### Steps but for their lines -/

namespace Step

mutual

/-- A step with all its elements on one line. -/
def onLine (line : Nat) : Step → Step
  | branch condition body => branch condition (onLines line body)
  | loop condition body => loop condition (onLines line body)
  | block body => block (onLines line body)
  | unknown tag _ => unknown tag line
  | invalid tag _ reason => invalid tag line reason
  | step => step

def onLines (line : Nat) : List Step → List Step
  | [] => []
  | s :: ss => onLine line s :: onLines line ss

end

theorem interactionOf_onLine (n : Node) (kind : Interaction) (line : Nat) :
    interactionOf (n.onLine line) kind = (interactionOf n kind).map (onLine line) := by
  have hsame : interactionOf (n.onLine line) kind = interactionOf n kind := by cases n; rfl
  rw [hsame]
  cases h : interactionOf n kind with
  | error e => rfl
  | ok step =>
    simp only [interactionOf, bind, Except.bind] at h
    repeat (split at h; · cases h)
    cases h
    rfl

/-- The line of an element goes into its step only as a line. -/
theorem build_onLine (n : Node) (body : List Step) (line : Nat) :
    build (n.onLine line) (onLines line body) = (build n body).map (onLine line) := by
  have htag : (n.onLine line).tag = n.tag := by cases n; rfl
  have htext : (n.onLine line).text = n.text := by cases n; rfl
  have hline : (n.onLine line).line = line := by cases n; rfl
  have hattribute : (n.onLine line).attribute? = n.attribute? := by cases n; rfl
  have hrequired : (n.onLine line).required = n.required := by cases n; rfl
  have hplace : (n.onLine line).place = n.place := by cases n; rfl
  have hwait : waitOf (n.onLine line) = waitOf n := by cases n; rfl
  have hnumber : (n.onLine line).number (Number.word32? 10) = n.number (Number.word32? 10) := by
    cases n; rfl
  unfold build
  rw [htag, htext, hline, hattribute, hrequired, hplace, hwait, hnumber]
  split
  · cases n.required "Condition" <;> rfl
  · cases n.required "Condition" <;> rfl
  · cases n.attribute? "Json" with
    | none => by_cases ht : n.text = "" <;> simp only [ht, if_true, if_false] <;> rfl
    | some => rfl
  · cases n.number (Number.word32? 10) "ZoneId" with
    | error => rfl
    | ok => cases n.place <;> rfl
  · cases n.required "Class" with
    | error => rfl
    | ok name =>
      simp only [bind, Except.bind]
      cases Job.read name <;> rfl
  · cases waitOf n <;> rfl
  · cases n.required "Path" <;> rfl
  · exact interactionOf_onLine n _ line
  · exact interactionOf_onLine n _ line
  · exact interactionOf_onLine n _ line
  · rfl
  · rfl
  · split <;> rfl

mutual

theorem ofNode_onLine (line : Nat) : ∀ n : Node, ofNode (n.onLine line) = (ofNode n).onLine line
  | ⟨tag, attributes, text, children, l⟩ => by
    have hbuild := build_onLine ⟨tag, attributes, text, children, l⟩ (ofNodes children) line
    rw [← ofNodes_onLines line children] at hbuild
    rw [Node.onLine] at hbuild ⊢
    rw [ofNode, ofNode, hbuild]
    cases build ⟨tag, attributes, text, children, l⟩ (ofNodes children) <;> rfl

theorem ofNodes_onLines (line : Nat) :
    ∀ ns : List Node, ofNodes (Node.onLines line ns) = onLines line (ofNodes ns)
  | [] => rfl
  | n :: ns => by
    rw [Node.onLines, ofNodes, ofNodes, onLines, ofNode_onLine line n, ofNodes_onLines line ns]

end

end Step

/-! ### Programs but for their lines -/

namespace Program

theorem nameOf_onLines (line : Nat) (steps : List Step) :
    nameOf (Step.onLines line steps) = nameOf steps := by
  induction steps with
  | nil => rfl
  | cons s ss ih =>
    unfold nameOf at ih ⊢
    rw [Step.onLines, List.findSome?_cons, List.findSome?_cons, ih]
    cases s <;> rfl

/-- The lines of its elements go into a program only as lines. -/
theorem ofRoot_of_onLine {m n : Node} (h : m.onLine 0 = n.onLine 0) (base : String) :
    (ofRoot base m).name = (ofRoot base n).name ∧
      Step.onLines 0 (ofRoot base m).steps = Step.onLines 0 (ofRoot base n).steps := by
  have hsteps : Step.onLines 0 (Step.ofNodes m.children) =
      Step.onLines 0 (Step.ofNodes n.children) := by
    rw [← Step.ofNodes_onLines, ← Step.ofNodes_onLines]
    obtain ⟨_, _, _, _, _⟩ := m
    obtain ⟨_, _, _, _, _⟩ := n
    exact congrArg (fun k => Step.ofNodes k.children) h
  refine ⟨?_, hsteps⟩
  show nameOf _ = nameOf _
  rw [← nameOf_onLines 0, hsteps, nameOf_onLines]

/-- **What is put into an element.** A comment that begins with a blank, and in which expansion
leaves no end of a comment and no reference but built-in ones, leaves the name and the steps of a
program as they are but for lines, at any place that no reference spans. A section of plain
character data adds what expansion makes of it to the text of the element, between the text that
stands before and the text that stands behind. -/
theorem parse_of_inserted {es : List Entity} {pre post bpre bpost : List Char} {line : Nat}
    {tag : String} (source base : String)
    (hplace : document (passes es passLimit bpre) = .error ⟨line, .unclosed tag⟩) :
    (∀ body p, Admits (comment body) es pre post bpre bpost →
      (∀ k ≤ passLimit, ¬ Spans IsReference (passes es k bpre) (passes es k bpost)) →
      body.head? = some ' ' → ¬ "-->".toList <:+: passes es passLimit body →
      (∀ n ∈ references (passes es passLimit body), isBuiltin n = true) →
      parse source base (String.ofList (pre ++ post)) = .ok p →
      ∃ q, parse source base (String.ofList (pre ++ (comment body ++ post))) = .ok q ∧
        q.name = p.name ∧ Step.onLines 0 q.steps = Step.onLines 0 p.steps) ∧
    ∃ t₀ t₁, ∀ data q, Admits (dataSection data) es pre post bpre bpost →
      ¬ "]]>".toList <:+: passes es passLimit data →
      parse source base (String.ofList (pre ++ (dataSection data ++ post))) = .ok q →
      ∃ n ∈ q.root.all, n.tag = tag ∧
        n.text.toList = trim (t₀ ++ passes es passLimit data ++ t₁) := by
  refine ⟨?_, ?_⟩
  · intro body p hadmits hspans hhead hclosed hrefs hp
    obtain ⟨out, root, hout, hroot, rfl⟩ := parse_eq_ok_iff.1 hp
    rw [String.toList_ofList] at hout
    obtain ⟨rfl, hout'⟩ := expand_insert encloses_comment hadmits
      (fun k hk hs => hspans k hk (hs.mono fun _ => .inl)) hrefs hout
    obtain ⟨body, rfl⟩ := List.head?_eq_some_iff.1 hhead
    have hblank : passes es passLimit (' ' :: body) = ' ' :: passes es passLimit body :=
      passes_plain_append (s := [' ']) (by decide) passLimit body
    have haside : AsideText (comment (passes es passLimit (' ' :: body))) := by
      refine .comment hclosed ?_ ?_ <;> simp [hblank]
    obtain ⟨m, hm, hline⟩ := document_insert_aside hplace haside.form (fun raw hraw _ =>
      decode_run_append (fun hs => hspans passLimit (Nat.le_refl _) (hs.mono fun _ => .inr)) hraw)
      hroot
    obtain ⟨hname, hsteps⟩ := ofRoot_of_onLine hline base
    refine ⟨ofRoot base m, parse_eq_ok_iff.2 ⟨_, m, ?_, hm, rfl⟩, hname, hsteps⟩
    rw [String.toList_ofList]
    exact hout'
  · obtain ⟨t₀, ht₀⟩ := document_section hplace
    obtain ⟨t₁, ht₁⟩ := ht₀ (passes es passLimit bpost)
    refine ⟨t₀, t₁, fun data q hadmits hclosed hq => ?_⟩
    obtain ⟨out, root, hout, hroot, rfl⟩ := parse_eq_ok_iff.1 hq
    rw [String.toList_ofList] at hout
    obtain rfl := eq_of_expand_insert encloses_section hadmits hout
    exact ht₁ _ root hclosed hroot

/-- A comment and a section between the texts of an element, behind an element that comes from an
entity. -/
theorem parse_of_inserted_in_log :
    let pre := "<!DOCTYPE P [<!ENTITY e \"<A/>\">]>\n<P><Name>n</Name>&e;<Log>a".toList
    let post := "b</Log></P>".toList
    (∃ p q, parse "" "" (String.ofList (pre ++ post)) = .ok p ∧
      parse "" "" (String.ofList (pre ++ (comment " &e; &lt;\n".toList ++ post))) = .ok q ∧
      q.name = p.name ∧ Step.onLines 0 q.steps = Step.onLines 0 p.steps) ∧
    ∃ t₀ t₁ q, parse "" "" (String.ofList (pre ++ (dataSection "<&e;\n".toList ++ post))) = .ok q ∧
      ∃ n ∈ q.root.all, n.tag = "Log" ∧
        n.text.toList = trim (t₀ ++ "<<A/>\n".toList ++ t₁) := by
  intro pre post
  let es : List Entity := [("e".toList, "<A/>".toList)]
  let rest := "\n<P><Name>n</Name>&e;<Log>a".toList
  have hplace : document (passes es passLimit rest) = .error ⟨2, .unclosed "Log"⟩ := by
    have h : (match document (passes es passLimit rest) with
      | .error f => some f
      | .ok _ => none) = some ⟨2, .unclosed "Log"⟩ := by decide +kernel
    split at h
    · next heq => rw [heq, Option.some.inj h]
    · cases h
  have hadmits : ∀ x, Admits x es pre post rest post := by
    intro x
    have hblock : IsBlock "<!DOCTYPE P [<!ENTITY e \"<A/>\">]>".toList rest :=
      ⟨⟨"<!DOCTYPE".toList, _, rfl, beq_self_eq_true _⟩, by decide +kernel⟩
    have hes : declarations "<!DOCTYPE P [<!ENTITY e \"<A/>\">]>".toList = es := by decide +kernel
    have h := @Admits.before x [] _ rest post NoBlock.nil hblock
    rwa [hes] at h
  have hspans : ∀ k ≤ passLimit, ¬ Spans IsReference (passes es k rest) (passes es k post) := by
    intro k _ ⟨a, n, m, b, _, hm, _⟩
    rw [passes_of_fixed (substitute_of_not_mem (by decide))] at hm
    have hmem : ';' ∈ post := by rw [hm]; simp
    exact absurd hmem (by decide)
  obtain ⟨hcomment, t₀, t₁, hdata⟩ := parse_of_inserted "" "" hplace
  obtain ⟨p, hp⟩ : ∃ p, parse "" "" (String.ofList (pre ++ post)) = .ok p :=
    Except.exists_eq_ok (by decide +kernel)
  obtain ⟨q, hq⟩ := hcomment " &e; &lt;\n".toList p (hadmits _) hspans rfl (by decide +kernel)
    (by decide +kernel) hp
  obtain ⟨q', hq'⟩ : ∃ q,
      parse "" "" (String.ofList (pre ++ (dataSection "<&e;\n".toList ++ post))) = .ok q :=
    Except.exists_eq_ok (by decide +kernel)
  have hpasses : passes es passLimit "<&e;\n".toList = "<<A/>\n".toList := by decide +kernel
  have htext := hdata _ q' (hadmits _) (by decide +kernel) hq'
  rw [hpasses] at htext
  exact ⟨⟨p, q, hp, hq⟩, t₀, t₁, q', hq', htext⟩

/-- References count in comments and in sections too, since entities are expanded before: one that
is not declared is an error, one whose value ends the comment adds a step, a comment in a reference
takes it apart, and one in a section is replaced. -/
theorem parse_of_inserted_reference :
    ((parse "" "" "<P><A/><B/></P>").toOption.isSome = true ∧
      (parse "" "" "<P><A/><!-- &x; --><B/></P>").toOption.isSome = false) ∧
    ((parse "" "" "<!DOCTYPE P [<!ENTITY e \"--><C/>\">]><P><A/><B/></P>").toOption.map
        (·.steps.map Step.tag) = some ["A", "B"] ∧
      (parse "" "" "<!DOCTYPE P [<!ENTITY e \"--><C/>\">]><P><A/><!-- &e; --><B/></P>").toOption.map
        (·.steps.map Step.tag) = some ["A", "C", "B"]) ∧
    ((parse "" "" "<P><Log><A/>&lt;<B/></Log></P>").toOption.map
        (·.root.children.map (·.text)) = some ["<"] ∧
      (parse "" "" "<P><Log><A/>&l<!-- c -->t;<B/></Log></P>").toOption.map
        (·.root.children.map (·.text)) = some ["&lt;"]) ∧
    (parse "" "" "<!DOCTYPE P [<!ENTITY a \"x\">]><P><Log><![CDATA[&a;]]></Log></P>").toOption.map
      (·.root.children.map (·.text)) = some ["x"] := by
  decide +kernel

end Program

end Progression
