import OperatorGrammar.Node.Visit
import OperatorGrammar.Proofs.Obstacle

/-!
What a visitor is called on. It goes through what stands in a tree in preorder, except below what it
leaves unopened, up to the first place at which it is stopped. Main statements:
`Visitor.visitUnder_eq`, by which a visit is a walk along a list, and `Visitor.calls_in_preorder`.
-/

namespace OperatorGrammar

open Refusal

namespace Visitor

variable {v : Visitor} {n : Node} {above : List Node} {o : Occurrence} {os : List Occurrence}

/-! ## Visits as walks -/

/-- What a visitor does at a place, apart from what it does below it. -/
def attend (v : Visitor) (o : Occurrence) : Visiting Unit :=
  v.comeTo (o.above.map Node.kind) o.node
    (match o.node.foreignHere? with
    | some w => throw (.notANode w)
    | none => pure ())

/-- What is below a node comes behind the node itself, if the visitor looks there. -/
theorem comeTo_eq (hf : n.foreignHere? = none) (above : List Node) (below : Visiting Unit) :
    v.comeTo (above.map Node.kind) n below =
      (do v.attend ⟨n, above⟩; if v.enters n.kind.name then below) := by
  simp only [attend, hf, comeTo, bind_assoc]
  by_cases he : v.enters n.kind.name = true <;> by_cases hw : v.watches n.kind.name = true <;>
    simp [he, hw]

theorem visitAllUnder_eq (path : List TreeKind) (ns : List Node) :
    v.visitAllUnder path ns = forM ns (v.visitUnder path) := by
  induction ns with
  | nil => rfl
  | cons n ns ih =>
    rw [visitAllUnder, ih]
    rfl

/-- A visitor comes to a node, and then to what is directly below it, one after the other. -/
theorem visitUnder_step (hf : n.foreignHere? = none) (above : List Node) :
    v.visitUnder (above.map Node.kind) n = (do
      v.attend ⟨n, above⟩
      if v.enters n.kind.name then
        forM n.children (v.visitUnder ((n :: above).map Node.kind))) := by
  rw [← comeTo_eq hf]
  cases n with
  | number | reference | prototype => rw [visitUnder]; rfl
  | binary o left right l =>
    rw [visitUnder]
    simp [Node.children]
  | call f as l =>
    rw [visitUnder, visitAllUnder_eq]
    rfl
  | function p body l =>
    rw [visitUnder]
    simp [Node.children, visitUnder]
  | foreign w => cases hf

/-- Whether a visitor comes to a place: it looks below every node around it. -/
def reaches (v : Visitor) (o : Occurrence) : Bool := o.above.all fun a => v.enters a.kind.name

/-- Below what is left unopened the visitor comes to nothing. -/
theorem filter_reaches_of_not_enters {a : Node} (ha : a ∈ above)
    (h : v.enters a.kind.name = false) (n : Node) :
    (n.occurrencesUnder above).filter v.reaches = [] := by
  rw [List.filter_eq_nil_iff]
  intro o ho hr
  have hreaches := List.all_eq_true.1 hr a ((Node.suffix_above ho).subset ha)
  rw [h] at hreaches
  cases hreaches

theorem filter_reaches_eq (hr : ∀ a ∈ above, v.enters a.kind.name = true) (n : Node) :
    (n.occurrencesUnder above).filter v.reaches =
      ⟨n, above⟩ :: if v.enters n.kind.name then
        n.children.flatMap fun c => (c.occurrencesUnder (n :: above)).filter v.reaches else [] := by
  have hroot : v.reaches ⟨n, above⟩ = true := List.all_eq_true.2 hr
  rw [Node.occurrencesUnder_eq, List.filter_cons_of_pos hroot, List.filter_flatMap]
  split
  · rfl
  · rename_i h
    rw [List.flatMap_eq_nil_iff.2]
    intro c _
    exact filter_reaches_of_not_enters List.mem_cons_self (by simpa using h) c

theorem forM_flatMap {act : Occurrence → Visiting Unit} {f : Node → List Occurrence}
    (ns : List Node) : forM (ns.flatMap f) act = forM ns fun n => forM (f n) act := by
  induction ns with
  | nil => rfl
  | cons n ns ih => rw [List.flatMap_cons, List.forM_append, ih, List.forM_cons]

theorem forM_congr {ns : List Node} {f g : Node → Visiting Unit} (h : ∀ n ∈ ns, f n = g n) :
    forM ns f = forM ns g := by
  induction ns with
  | nil => rfl
  | cons n ns ih =>
    obtain ⟨hn, hns⟩ := List.forall_mem_cons.1 h
    rw [List.forM_cons, List.forM_cons, hn, ih hns]

/-- A visit is a walk along what the visitor comes to. -/
theorem visitUnder_eq (hr : ∀ a ∈ above, v.enters a.kind.name = true) (n : Node) :
    v.visitUnder (above.map Node.kind) n =
      forM ((n.occurrencesUnder above).filter v.reaches) v.attend := by
  induction n using Node.childrenInduction generalizing above with
  | below n ih =>
    rw [filter_reaches_eq hr, List.forM_cons]
    cases hf : n.foreignHere? with
    | some w =>
      cases n with
      | foreign w => simp [visitUnder, attend, Node.children, Node.foreignHere?]
      | _ => cases hf
    | none =>
      rw [visitUnder_step hf]
      refine congrArg _ (funext fun _ => ?_)
      split
      · rename_i he
        rw [forM_flatMap]
        exact forM_congr fun c hc => ih c hc (List.forall_mem_cons.2 ⟨he, hr⟩)
      · rfl

/-! ## Walks -/

/-- The value that a visitor does not pass over at a place, if there is one: it stands in the place
of a node, and its class is not both watched and closed. -/
def refused? (v : Visitor) (o : Occurrence) : Option Value :=
  if v.enters o.node.kind.name then o.node.foreignHere? else none

/-- What stops a visitor at a place, if something does. If it comes to the place at all, there has
to be room for looking below it, too. -/
def stopAt? (v : Visitor) (o : Occurrence) : Option Refusal :=
  if v.calling.holds o.path && (!v.enters o.node.kind.name || v.opening.holds o.path) then
    (v.refused? o).map .notANode
  else some .exhausted

/-- Whether a visitor is called on what stands in a place. -/
def isCalledAt (v : Visitor) (o : Occurrence) : Bool :=
  v.calling.holds o.path && v.watches o.node.kind.name

/-- What is called at a place is kept, be the visitor stopped there or not. -/
theorem attend_run (v : Visitor) (o : Occurrence) (seen : List Node) : (v.attend o).run seen =
    (outcome (v.stopAt? o) (), if v.isCalledAt o then o.node :: seen else seen) := by
  simp only [attend, comeTo, stopAt?, refused?, isCalledAt, Stack.enter, Occurrence.path]
  by_cases hc : v.calling.holds (o.node.kind :: o.above.map Node.kind) = true <;>
    by_cases hw : v.watches o.node.kind.name = true <;>
    by_cases he : v.enters o.node.kind.name = true <;>
    by_cases ho : v.opening.holds (o.node.kind :: o.above.map Node.kind) = true <;>
    cases hf : o.node.foreignHere? <;> simp [hc, hw, he, ho] <;> rfl

/-- The places up to the first at which something stops a walk, with that one. -/
def upTo (stops : Occurrence → Bool) (os : List Occurrence) : List Occurrence :=
  os.takeWhile (fun o => !stops o) ++ (os.find? stops).toList

theorem upTo_cons (stops : Occurrence → Bool) (o : Occurrence) (os : List Occurrence) :
    upTo stops (o :: os) = o :: if stops o then [] else upTo stops os := by
  cases h : stops o <;> simp [upTo, h]

/-- A walk goes on up to the first place at which the visitor is stopped. -/
theorem forM_attend_run (os : List Occurrence) (seen : List Node) :
    (forM os v.attend).run seen = (outcome (os.findSome? v.stopAt?) (),
      (((upTo (fun o => (v.stopAt? o).isSome) os).filter v.isCalledAt).map Occurrence.node).reverse
        ++ seen) := by
  induction os generalizing seen with
  | nil => rfl
  | cons o os ih =>
    have hattend := attend_run v o seen
    rw [List.forM_cons, List.findSome?_cons, upTo_cons]
    cases hs : v.stopAt? o with
    | some r =>
      rw [hs] at hattend
      rw [run_bind_error hattend]
      cases hc : v.isCalledAt o <;> simp [hc, outcome]
    | none =>
      rw [hs] at hattend
      rw [run_bind_ok hattend, ih]
      cases hc : v.isCalledAt o <;> simp [hc]

/-- Where there is room, only a foreign value stops a visitor, and it is called on what it
watches. -/
theorem stopAt?_of_room (h : v.stopAt? o ≠ some .exhausted) :
    v.stopAt? o = (v.refused? o).map .notANode ∧
      v.isCalledAt o = v.watches o.node.kind.name := by
  rw [stopAt?] at h ⊢
  split at h
  · rename_i hroom
    rw [if_pos hroom, isCalledAt, (Bool.and_eq_true_iff.1 hroom).1]
    exact ⟨rfl, Bool.true_and _⟩
  · exact absurd rfl h

/-- Where there is room for all that a walk comes to, only foreign values stop it. -/
theorem walk_of_room (h : os.findSome? v.stopAt? ≠ some .exhausted) :
    os.findSome? v.stopAt? = (os.findSome? v.refused?).map .notANode ∧
      (upTo (fun o => (v.stopAt? o).isSome) os).filter v.isCalledAt =
        (upTo (fun o => (v.refused? o).isSome) os).filter fun o => v.watches o.node.kind.name := by
  induction os with
  | nil => exact ⟨rfl, rfl⟩
  | cons o os ih =>
    have hroom : v.stopAt? o ≠ some .exhausted := by
      intro hs
      rw [List.findSome?_cons, hs] at h
      exact h rfl
    obtain ⟨hstop, hcalled⟩ := stopAt?_of_room hroom
    rw [List.findSome?_cons, hstop] at h
    rw [upTo_cons, upTo_cons, List.findSome?_cons, List.findSome?_cons, hstop]
    cases hr : v.refused? o with
    | some w => simp [List.filter_cons, hcalled]
    | none =>
      rw [hr] at h
      obtain ⟨hfind, hcalls⟩ := ih h
      simp [List.filter_cons, hcalled, hfind, hcalls]

/-- A visitor comes to what stands below no node whose class it both watches and closes, in
preorder, up to the first place at which it is stopped, and it is called on what it watches of that,
each once; at the last place only if there is room for the call. Unless it is stopped by the stack,
it is stopped by the first foreign value that it comes to, other than those whose class it both
watches and closes. -/
theorem calls_in_preorder (v : Visitor) (n : Node) :
    let met := n.occurrences.filter v.reaches
    v.calls n =
        (((upTo (fun o => (v.stopAt? o).isSome) met).filter v.isCalledAt).map Occurrence.node,
          met.findSome? v.stopAt?) ∧
      ((v.calls n).2 ≠ some .exhausted → v.calls n =
        (((upTo (fun o => (v.refused? o).isSome) met).filter
            fun o => v.watches o.node.kind.name).map Occurrence.node,
          (met.findSome? v.refused?).map .notANode)) := by
  intro met
  have hvisit : (v.visitUnder [] n).run [] = (outcome (met.findSome? v.stopAt?) (),
      (((upTo (fun o => (v.stopAt? o).isSome) met).filter v.isCalledAt).map
        Occurrence.node).reverse ++ []) := by
    have hwalk := visitUnder_eq (v := v) (List.forall_mem_nil _) n
    rw [← forM_attend_run met []]
    exact congrFun (congrArg ExceptT.run hwalk) []
  have hcalls : v.calls n =
      (((upTo (fun o => (v.stopAt? o).isSome) met).filter v.isCalledAt).map Occurrence.node,
        met.findSome? v.stopAt?) := by
    rw [calls, hvisit]
    cases met.findSome? v.stopAt? <;> simp [outcome]
  refine ⟨hcalls, ?_⟩
  intro hroom
  rw [hcalls] at hroom ⊢
  obtain ⟨hfind, hwalk⟩ := walk_of_room hroom
  rw [hfind, hwalk]

/-- The call is not opened, so the value in it does no harm; the other value is watched, but that
does not keep it from stopping the visitor. -/
theorem calls_in_preorder_past_call :
    ∃ (v : Visitor) (n : Node), v.visit n =
        ([.node .call, .node .reference, .foreign .text], some (.notANode (.text "y"))) ∧
      v.calls n =
        (((upTo (fun o => (v.refused? o).isSome) (n.occurrences.filter v.reaches)).filter
            fun o => v.watches o.node.kind.name).map Occurrence.node,
          ((n.occurrences.filter v.reaches).findSome? v.refused?).map .notANode) := by
  let v : Visitor :=
    ⟨["Call", "VariableRef", "str"].contains, ["Call"].contains, .levels 3, .levels 3⟩
  let n : Node := .binary "+" (.call (.text "f") [.foreign .nothing] none)
    (.binary "+" (.reference (.text "x") none) (.foreign (.text "y")) none) none
  have hstopped : (v.calls n).2 = some (.notANode (.text "y")) := rfl
  exact ⟨v, n, rfl, (calls_in_preorder v n).2 (by rw [hstopped]; exact nofun)⟩

/-- A visitor that watches a class and closes it passes over the foreign values of that class, and
it makes no difference whether that is the name of a node class. So not every foreign value that
stands below no unopened node stops it. -/
theorem calls_of_closed_class :
    (¬ ∀ (watched closed : String → Bool) (n : Node),
      (∃ w, ((⟨watched, closed, .unbounded, .unbounded⟩ : Visitor).calls n).2 =
          some (.notANode w)) ↔
        ∃ o ∈ n.occurrences, (∃ w, o.node = .foreign w) ∧
          o.above.all (fun a => !(watched a.kind.name && closed a.kind.name)) = true) ∧
      (⟨(· == "Call"), (· == "Call"), .unbounded, .unbounded⟩ : Visitor).visit
        (.foreign (.object "Call" "<Call>" 0)) = ([.foreign (.object "Call")], none) := by
  refine ⟨?_, rfl⟩
  intro h
  have hstops := (h (· == "int") (· == "int") (.foreign (.integer 5))).2
    ⟨⟨.foreign (.integer 5), []⟩,
      by simp [Node.occurrences, Node.occurrencesUnder_eq, Node.children], ⟨_, rfl⟩, rfl⟩
  obtain ⟨w, hw⟩ := hstops
  cases hw

end Visitor

end OperatorGrammar
