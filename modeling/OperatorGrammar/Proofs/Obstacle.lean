import OperatorGrammar.Node.Refusal
import OperatorGrammar.Proofs.Preorder

/-!
What keeps a walk through a tree from going on. A walk comes to the places of a tree in preorder. At
each of them the stack has to have room, and what stands there must not be refused; the first place
where that is not so is an obstacle. Main statement: `Stack.firstUnder_eq`, by which the first
obstacle is found along the recursion of a walk.
-/

namespace OperatorGrammar

/-- The kinds of what stands at a place and of the nodes around it, the innermost first. -/
def Occurrence.path (o : Occurrence) : List TreeKind := o.node.kind :: o.above.map Node.kind

/-- What a walk comes to that has a result, unless there is an obstacle. -/
def Refusal.outcome {α : Type} (obstacle : Option Refusal) (result : α) : Except Refusal α :=
  obstacle.elim (.ok result) .error

namespace Refusal

variable {α β : Type} {a : α} {b : β} {r : Refusal} {first second : Option Refusal}

theorem outcome_eq_ok_iff : outcome first a = .ok a ↔ first = none := by
  cases first <;> simp [outcome]

theorem outcome_eq_error_iff : outcome first a = .error r ↔ first = some r := by
  cases first <;> simp [outcome]

theorem eq_of_outcome_eq_ok {c : α} (h : outcome first a = .ok c) : c = a := by
  cases first with
  | none => exact (Except.ok.inj h).symm
  | some r => cases h

theorem outcome_bind {f : α → Except Refusal β} (h : f a = outcome second b) :
    (outcome first a >>= f) = outcome (first.or second) b := by
  cases first with
  | none => exact h
  | some r => rfl

theorem outcome_map {f : α → Except Refusal β} (h : f a = .ok b) :
    (outcome first a >>= f) = outcome first b := by
  cases first with
  | none => exact h
  | some r => rfl

/-! What a walk does to a state before it is refused stays done. -/

section

variable {σ : Type} {act : ExceptT Refusal (StateM σ) α}
  {next : α → ExceptT Refusal (StateM σ) β} {s t : σ}

theorem run_bind_ok (h : act.run s = (.ok a, t)) : (act >>= next).run s = (next a).run t := by
  rw [ExceptT.run_bind]
  show StateT.bind act.run _ s = _
  simp only [StateT.bind, h]
  rfl

theorem run_bind_error (h : act.run s = (.error r, t)) : (act >>= next).run s = (.error r, t) := by
  rw [ExceptT.run_bind]
  show StateT.bind act.run _ s = _
  simp only [StateT.bind, h]
  rfl

end

end Refusal

open Refusal

/-- What a numeral that holds a value shows; nothing, if the value is no number. -/
def Value.compact : Value → String
  | .number x => x.compactText
  | _ => ""

/-- Why a numeral that holds a value is refused. -/
def Value.refusedAsNumeral : Value → Option Refusal
  | .number _ => none
  | v => some (.lacks v "is_integer")

theorem Value.numeral_eq (v : Value) : v.numeral = outcome v.refusedAsNumeral v.compact := by
  cases v <;> rfl

namespace Node

/-- Why a walk that shows a tree does not go on where a node stands: a numeral may hold no number,
and a foreign value is refused in its own way. -/
def refused (foreignly : Value → Refusal) : Node → Option Refusal
  | number v _ => v.refusedAsNumeral
  | foreign v => some (foreignly v)
  | reference .. | binary .. | call .. | prototype _ | function .. => none

/-- Whether a node holds a number if it is a numeral. -/
def holdsNumber : Node → Bool
  | number (.number _) _ => true
  | number _ _ => false
  | reference .. | binary .. | call .. | prototype _ | function .. | foreign _ => true

/-- What stands in a place is as it should be if it is a node and, if that is a numeral, holds a
number. -/
def IsSoundHere (n : Node) : Prop := n.foreignHere? = none ∧ n.holdsNumber = true

theorem refused_eq_none_iff {foreignly : Value → Refusal} {n : Node} :
    n.refused foreignly = none ↔ n.IsSoundHere := by
  cases n with
  | number v l =>
    cases v <;> simp [refused, Value.refusedAsNumeral, IsSoundHere, holdsNumber, foreignHere?]
  | _ => simp [refused, IsSoundHere, holdsNumber, foreignHere?]

/-- A tree is sound if all that stands in it is as it should be. -/
def IsSound (n : Node) : Prop := ∀ o ∈ n.occurrences, o.node.IsSoundHere

/-- What is so of all that stands in a tree is so of its root and in the trees below that. -/
theorem forall_mem_occurrencesUnder_iff {p : Node → Prop} {n : Node} {above : List Node} :
    (∀ o ∈ n.occurrencesUnder above, p o.node) ↔
      p n ∧ ∀ c ∈ n.children, ∀ o ∈ c.occurrencesUnder (n :: above), p o.node := by
  rw [occurrencesUnder_eq, List.forall_mem_cons]
  simp only [List.mem_flatMap, forall_exists_index, and_imp]
  exact and_congr_right fun _ => ⟨fun h c hc o => h o c hc, fun h o c hc => h c hc o⟩

theorem isSoundUnder_of {n : Node} {above : List Node} (hn : n.IsSoundHere)
    (h : ∀ c ∈ n.children, ∀ o ∈ c.occurrencesUnder (n :: above), o.node.IsSoundHere) :
    ∀ o ∈ n.occurrencesUnder above, o.node.IsSoundHere :=
  forall_mem_occurrencesUnder_iff.2 ⟨hn, h⟩

end Node

namespace Stack

variable {k : Stack} {refuses : Node → Option Refusal} {n : Node} {above : List Node}

/-- A stack has room for a tree if it has room at each place in it. -/
def HasRoom (k : Stack) (n : Node) : Prop := ∀ o ∈ n.occurrences, k.holds o.path = true

theorem unbounded_hasRoom (n : Node) : unbounded.HasRoom n := fun _ _ => rfl

/-- The obstacle at a place, if there is one. -/
def obstacle? (k : Stack) (refuses : Node → Option Refusal) (o : Occurrence) : Option Refusal :=
  if k.holds o.path then refuses o.node else some .exhausted

theorem obstacle?_eq_none_iff {o : Occurrence} :
    k.obstacle? refuses o = none ↔ k.holds o.path = true ∧ refuses o.node = none := by
  unfold obstacle?
  split <;> simp_all

/-- A walk comes to a place, and goes on there if there is room. -/
theorem enter_bind {α : Type} {a : α} {x : Except Refusal α} {second : Option Refusal}
    {path : List TreeKind} {o : Occurrence} (hp : path = o.path)
    (h : x = outcome ((refuses o.node).or second) a) :
    (k.enter path >>= fun _ => x) = outcome ((k.obstacle? refuses o).or second) a := by
  rw [hp, enter, obstacle?]
  split
  · exact h
  · rfl

/-- The first obstacle in a tree that stands below the nodes `above`. -/
def firstUnder (k : Stack) (refuses : Node → Option Refusal) (above : List Node) (n : Node) :
    Option Refusal :=
  (n.occurrencesUnder above).findSome? (k.obstacle? refuses)

/-- The first obstacle in a tree. -/
def first (k : Stack) (refuses : Node → Option Refusal) (n : Node) : Option Refusal :=
  n.occurrences.findSome? (k.obstacle? refuses)

/-- The first obstacle in trees that stand beside each other below the nodes `above`. -/
def firstAmong (k : Stack) (refuses : Node → Option Refusal) (above : List Node) :
    List Node → Option Refusal
  | [] => none
  | n :: ns => (k.firstUnder refuses above n).or (firstAmong k refuses above ns)

theorem firstAmong_eq (ns : List Node) : k.firstAmong refuses above ns =
    (ns.flatMap (Node.occurrencesUnder above)).findSome? (k.obstacle? refuses) := by
  induction ns with
  | nil => rfl
  | cons n ns ih => rw [firstAmong, ih, List.flatMap_cons, List.findSome?_append, firstUnder]

/-- The first obstacle is at the root, or else in the first tree below it that has one. -/
theorem firstUnder_eq (above : List Node) (n : Node) :
    k.firstUnder refuses above n =
      (k.obstacle? refuses ⟨n, above⟩).or (k.firstAmong refuses (n :: above) n.children) := by
  rw [firstUnder, Node.occurrencesUnder_eq, List.findSome?_cons, firstAmong_eq]
  cases k.obstacle? refuses ⟨n, above⟩ <;> rfl

theorem firstUnder_of_leaf (h : n.children = []) (above : List Node) :
    k.firstUnder refuses above n = k.obstacle? refuses ⟨n, above⟩ := by
  rw [firstUnder_eq, h, firstAmong, Option.or_none]

/-- There is no obstacle if there is room everywhere and nothing is refused. -/
theorem first_eq_none_iff : k.first refuses n = none ↔
    k.HasRoom n ∧ ∀ o ∈ n.occurrences, refuses o.node = none := by
  simp only [first, HasRoom, List.findSome?_eq_none_iff, obstacle?_eq_none_iff]
  exact ⟨fun h => ⟨fun o ho => (h o ho).1, fun o ho => (h o ho).2⟩,
    fun h o ho => ⟨h.1 o ho, h.2 o ho⟩⟩

/-- An obstacle is a place without room, or what is refused there. -/
theorem exists_of_first_eq_some {r : Refusal} (h : k.first refuses n = some r) :
    (r = .exhausted ∧ ¬ k.HasRoom n) ∨ ∃ o ∈ n.occurrences, refuses o.node = some r := by
  obtain ⟨o, ho, hr⟩ := List.exists_of_findSome?_eq_some h
  unfold obstacle? at hr
  split at hr
  · exact .inr ⟨o, ho, hr⟩
  · rename_i hk
    exact .inl ⟨(Option.some.inj hr).symm, fun hroom => hk (hroom o ho)⟩

variable {foreignly : Value → Refusal}

/-- A tree can be shown if it is sound and there is room for it. -/
theorem first_refused_eq_none_iff :
    k.first (Node.refused foreignly) n = none ↔ k.HasRoom n ∧ n.IsSound := by
  rw [first_eq_none_iff]
  exact and_congr_right fun _ => forall₂_congr fun _ _ => Node.refused_eq_none_iff

/-- Nothing but the stack keeps a sound tree from being shown. -/
theorem first_refused_eq_exhausted (h : n.IsSound) (hk : ¬ k.HasRoom n) :
    k.first (Node.refused foreignly) n = some .exhausted := by
  cases hf : k.first (Node.refused foreignly) n with
  | none => exact absurd (first_refused_eq_none_iff.1 hf).1 hk
  | some r =>
    obtain ⟨rfl, -⟩ | ⟨o, ho, hr⟩ := exists_of_first_eq_some hf
    · rfl
    · rw [Node.refused_eq_none_iff.2 (h o ho)] at hr
      cases hr

end Stack

end OperatorGrammar
