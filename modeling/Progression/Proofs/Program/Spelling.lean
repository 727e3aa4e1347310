import Progression.Proofs.Markup.Lookup

/-!
Letters in either case. Tags and names of attributes are words that are read whatever their case, so
a tree that is spelled otherwise gives the same steps, as long as no two names of a tag are equal up
to case (`ofNodes_of_recased`). The spelling of a tag is seen only in the steps that keep it for
what they have to say: those of unknown tags and of faulty attributes.
-/

namespace Progression

open Progression.Text

namespace Markup

/-! ### Trees up to case -/

namespace Node

/-- The attributes, their names in lower case. -/
def folded (n : Node) : List (List Char × String) :=
  n.attributes.map fun a => (lower a.1.toList, a.2)

variable {n m : Node} {name value : String}

theorem mem_folded_iff : (lower name.toList, value) ∈ n.folded ↔
    ∃ key, (key, value) ∈ n.attributes ∧ sameWord key name := by
  simp only [folded, List.mem_map, Prod.mk.injEq, sameWord_iff]
  constructor
  · rintro ⟨⟨key, v⟩, hmem, hkey, rfl⟩
    exact ⟨key, hmem, hkey⟩
  · rintro ⟨key, hmem, hkey⟩
    exact ⟨(key, value), hmem, hkey, rfl⟩

theorem unambiguous_iff_nodup : n.Unambiguous ↔ (n.folded.map Prod.fst).Nodup := by
  rw [Unambiguous, folded, List.map_map, List.Nodup, List.pairwise_map]
  refine List.Pairwise.iff fun {a b} => ?_
  rw [Function.comp_apply, Function.comp_apply, ne_eq, ← sameWord_iff, Bool.not_eq_true]

/-- A lookup sees the attributes up to case and order, where no two of them are equal up to case. -/
theorem Unambiguous.attribute?_of_folded (h : n.Unambiguous) (hp : n.folded.Perm m.folded)
    (name : String) : n.attribute? name = m.attribute? name := by
  have hm : m.Unambiguous :=
    unambiguous_iff_nodup.2 ((hp.map Prod.fst).nodup_iff.1 (unambiguous_iff_nodup.1 h))
  ext value
  rw [h.attribute?_eq_some_iff, hm.attribute?_eq_some_iff, ← mem_folded_iff, ← mem_folded_iff]
  exact hp.mem_iff

end Node

mutual

/-- A tree with letters of its tags and of its names of attributes in another case. Names that are
spelled otherwise may stand in another order. -/
inductive Recased : Node → Node → Prop
  | mk {n m : Node} : sameWord n.tag m.tag → n.folded.Perm m.folded → n.text = m.text →
    n.line = m.line → RecasedAll n.children m.children → Recased n m

inductive RecasedAll : List Node → List Node → Prop
  | nil : RecasedAll [] []
  | cons {n m : Node} {ns ms : List Node} : Recased n m → RecasedAll ns ms →
    RecasedAll (n :: ns) (m :: ms)

end

end Markup

namespace Step

open Markup (Node Recased RecasedAll)

/-! ### Steps up to the case of their tags -/

mutual

/-- A step with the tags that are kept in it in lower case. -/
def lowered : Step → Step
  | branch condition body => branch condition (loweredAll body)
  | loop condition body => loop condition (loweredAll body)
  | block body => block (loweredAll body)
  | unknown tag line => unknown (String.ofList (lower tag.toList)) line
  | invalid tag line reason => invalid (String.ofList (lower tag.toList)) line reason
  | step => step

def loweredAll : List Step → List Step
  | [] => []
  | s :: ss => lowered s :: loweredAll ss

end

variable {n m : Node} {body body' : List Step}

/-- The case of a tag does not count for the step that is built, and the steps of the children go
into it as they are. -/
theorem build_of_tag {tag : String} (htag : sameWord tag n.tag)
    (hbody : loweredAll body = loweredAll body') :
    (build { n with tag } body).map lowered = (build n body').map lowered := by
  have hlower : lower tag.toList = lower n.tag.toList := sameWord_iff.1 htag
  have hinteraction (kind : Interaction) :
      interactionOf { n with tag } kind = interactionOf n kind := rfl
  have hwait : waitOf { n with tag } = waitOf n := rfl
  have hplace : Node.place { n with tag } = n.place := rfl
  have hrequired : Node.required { n with tag } = n.required := rfl
  have hattribute : Node.attribute? { n with tag } = n.attribute? := rfl
  have hnumber : Node.number { n with tag } (Number.word32? 10) = n.number (Number.word32? 10) :=
    rfl
  unfold build
  rw [hlower, hinteraction, hinteraction, hinteraction, hwait, hplace, hrequired, hattribute,
    hnumber]
  split
  case h_1 =>
    cases n.required "Condition" with
    | error => rfl
    | ok condition => exact congrArg (fun b => Except.ok (branch condition b)) hbody
  case h_2 =>
    cases n.required "Condition" with
    | error => rfl
    | ok condition => exact congrArg (fun b => Except.ok (loop condition b)) hbody
  case h_13 =>
    split
    · exact congrArg (fun b => Except.ok (block b)) hbody
    · exact congrArg (fun t => Except.ok (unknown (String.ofList t) n.line)) hlower
  -- the other steps have no body and keep no tag
  all_goals rfl

/-- The step of an element, up to the case of its tags. -/
theorem lowered_ofNode (n : Node) : (ofNode n).lowered =
    match (build n (ofNodes n.children)).map lowered with
    | .ok step => step
    | .error reason => .invalid (String.ofList (lower n.tag.toList)) n.line reason := by
  obtain ⟨tag, attributes, text, children, line⟩ := n
  rw [ofNode]
  cases build ⟨tag, attributes, text, children, line⟩ (ofNodes children) <;> rfl

mutual

theorem ofNode_of_recased : ∀ {n m : Node}, Recased n m → (∀ k ∈ n.all, k.Unambiguous) →
    (ofNode n).lowered = (ofNode m).lowered
  | n, m, .mk htag hp htext hline hns, hall => by
    have hself := hall n (Node.mem_all_iff.2 (.inl rfl))
    have hbody := ofNodes_of_recasedAll hns fun k hk => hall k (Node.mem_all_iff.2 (.inr hk))
    have hlook : build n (ofNodes n.children) =
        build { m with tag := n.tag } (ofNodes n.children) :=
      build_congr (m := { m with tag := n.tag }) (hself.attribute?_of_folded (m := m) hp) rfl
        htext hline _
    rw [lowered_ofNode, lowered_ofNode, hlook, build_of_tag htag hbody, sameWord_iff.1 htag, hline]

theorem ofNodes_of_recasedAll : ∀ {ns ms : List Node}, RecasedAll ns ms →
    (∀ k ∈ Node.allOf ns, k.Unambiguous) → loweredAll (ofNodes ns) = loweredAll (ofNodes ms)
  | _, _, .nil, _ => rfl
  | _, _, .cons hn hns, hall => by
    obtain ⟨hn', hns'⟩ := List.forall_mem_append.1 hall
    rw [ofNodes, ofNodes, loweredAll, loweredAll, ofNode_of_recased hn hn',
      ofNodes_of_recasedAll hns hns']

end

/-- **Steps do not heed case.** A tree in which no two names of a tag are equal up to case gives the
same steps if letters of its tags and of its names of attributes are in another case, but for the
tags that unknown and faulty steps keep, which are equal up to case. -/
theorem ofNodes_of_recased {root root' : Node} (h : Recased root root')
    (hall : ∀ n ∈ root.all, n.Unambiguous) :
    loweredAll (ofNodes root.children) = loweredAll (ofNodes root'.children) := by
  cases h with
  | mk _ _ _ _ hns =>
    exact ofNodes_of_recasedAll hns fun n hn => hall n (Node.mem_all_iff.2 (.inr hn))

/-- A tree with a loop, an interaction, a faulty wait and an unknown tag, in which names in other
cases change places. -/
theorem ofNodes_of_recased_nested :
    let root : Node := {
      tag := "Profile", line := 1
      children := [
        { tag := "While", attributes := [("Condition", "true")], line := 2
          children := [
            { tag := "TalkTo", line := 3
              attributes := [("ActorId", "7"), ("Location", "0,0,0"), ("ZoneId", "1")] },
            { tag := "Wait", attributes := [("Seconds", "-1")], line := 4 }] },
        { tag := "Sit", attributes := [("A", "1"), ("b", "2")], line := 5 }] }
    let root' : Node := {
      tag := "PROFILE", line := 1
      children := [
        { tag := "wHILE", attributes := [("CONDITION", "true")], line := 2
          children := [
            { tag := "talkto", line := 3
              attributes := [("Location", "0,0,0"), ("actorid", "7"), ("zoneID", "1")] },
            { tag := "WAIT", attributes := [("seconds", "-1")], line := 4 }] },
        { tag := "sIT", attributes := [("B", "2"), ("a", "1")], line := 5 }] }
    (Recased root root' ∧ ∀ n ∈ root.all, n.Unambiguous) ∧
      loweredAll (ofNodes root.children) = loweredAll (ofNodes root'.children) := by
  intro root root'
  have hwait : Recased { tag := "Wait", attributes := [("Seconds", "-1")], line := 4 }
      { tag := "WAIT", attributes := [("seconds", "-1")], line := 4 } :=
    .mk (by decide) (by decide) rfl rfl .nil
  have h : Recased root root' := by
    refine .mk (by decide) (by decide) rfl rfl (.cons (.mk (by decide) (by decide) rfl rfl ?_)
      (.cons (.mk (by decide) (by decide) rfl rfl .nil) .nil))
    exact .cons (.mk (by decide) (by decide) rfl rfl .nil) (.cons hwait .nil)
  have hall : ∀ n ∈ root.all, n.Unambiguous := by
    simp only [root, Node.all, Node.allOf, List.forall_mem_cons, List.forall_mem_append]
    decide
  exact ⟨⟨h, hall⟩, ofNodes_of_recased h hall⟩

end Step
end Progression
