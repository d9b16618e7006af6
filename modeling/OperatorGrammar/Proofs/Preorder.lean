import OperatorGrammar.Node

/-!
Trees in preorder. What stands in a tree is listed with the nodes around it: the root first, and
behind it what stands in the trees directly below, from the first to the last. Main statements:
`Node.childrenInduction` and `Node.occurrencesUnder_eq`.
-/

namespace OperatorGrammar

/-- What stands at a place in a tree, with the nodes around it, the innermost first. -/
structure Occurrence where
  node : Node
  above : List Node

namespace Node

variable {n c : Node}

theorem left_mem_children {o : String} {left right : Node} {l : Option Location} :
    left ∈ (binary o left right l).children := List.mem_cons_self

theorem right_mem_children {o : String} {left right : Node} {l : Option Location} :
    right ∈ (binary o left right l).children := List.mem_cons_of_mem _ List.mem_cons_self

theorem body_mem_children {p : Prototype} {body : Node} {l : Option Location} :
    body ∈ (function p body l).children := List.mem_cons_of_mem _ List.mem_cons_self

theorem sizeOf_lt_of_mem_children (h : c ∈ n.children) : sizeOf c < sizeOf n := by
  cases n with
  | binary o left right l =>
    simp only [children, List.mem_cons, List.not_mem_nil, or_false] at h
    rcases h with rfl | rfl <;> simp <;> omega
  | call f as l =>
    have := List.sizeOf_lt_of_mem (show c ∈ as from h)
    simp
    omega
  | function p body l =>
    simp only [children, List.mem_cons, List.not_mem_nil, or_false] at h
    rcases h with rfl | rfl
    · have : 0 < sizeOf body := by cases body <;> simp +arith
      simp
      omega
    · simp
      omega
  | _ => cases h

/-- What holds of a node if it holds of those directly below it holds of every tree. -/
@[elab_as_elim]
theorem childrenInduction {motive : Node → Prop}
    (below : ∀ n, (∀ c ∈ n.children, motive c) → motive n) (n : Node) : motive n :=
  below n fun c _ => childrenInduction below c
termination_by sizeOf n
decreasing_by exact sizeOf_lt_of_mem_children ‹_›

/-- What stands in a tree, in preorder, where the tree stands below the nodes `above`. -/
def occurrencesUnder (above : List Node) (n : Node) : List Occurrence :=
  ⟨n, above⟩ :: n.children.attach.flatMap fun c => c.1.occurrencesUnder (n :: above)
termination_by sizeOf n
decreasing_by exact sizeOf_lt_of_mem_children c.2

def occurrences (n : Node) : List Occurrence := n.occurrencesUnder []

theorem occurrencesUnder_eq (above : List Node) (n : Node) :
    n.occurrencesUnder above =
      ⟨n, above⟩ :: n.children.flatMap (occurrencesUnder (n :: above)) := by
  rw [occurrencesUnder, List.flatMap_subtype fun _ _ => rfl, List.unattach_attach]

/-- The nodes around a tree are around all that stands in it. -/
theorem suffix_above {above : List Node} {o : Occurrence} (h : o ∈ n.occurrencesUnder above) :
    above <:+ o.above := by
  induction n using childrenInduction generalizing above with
  | below n ih =>
    rw [occurrencesUnder_eq] at h
    rcases List.mem_cons.1 h with rfl | h
    · exact List.suffix_rfl
    · obtain ⟨c, hc, h⟩ := List.mem_flatMap.1 h
      exact (List.suffix_cons n above).trans (ih c hc h)

/-- The value that stands in the place of a node, if it is no node. -/
def foreignHere? : Node → Option Value
  | foreign v => some v
  | number .. | reference .. | binary .. | call .. | prototype _ | function .. => none

end Node

end OperatorGrammar
