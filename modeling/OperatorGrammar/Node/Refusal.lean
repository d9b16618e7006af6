import OperatorGrammar.Node

/-!
Walks through trees, and what keeps them from going on. A walk calls itself for what stands below a
node, and needs room for that on the stack of the interpreter. How much room there is and what the
calls take is left open: a stack says at which places there is room. Calls that are not made inside
those for the nodes around a place always find room.
-/

namespace OperatorGrammar

/-- Why a walk through a tree does not go on. -/
inductive Refusal where
  /-- A value stands where a node belongs. -/
  | notANode (v : Value)
  /-- A value has no such field. -/
  | lacks (v : Value) (field : String)
  /-- There is no room on the stack. -/
  | exhausted
deriving Repr

namespace Refusal

/-- The class of the error that is raised. -/
def className : Refusal → String
  | notANode _ => "TypeError"
  | lacks .. => "AttributeError"
  | exhausted => "RecursionError"

/-- The message of the error. Whether a stack has room is up to the interpreter, and so is what it
says if there is none. -/
def message (exhaustion : String) : Refusal → String
  | notANode v => "not an AST node: " ++ v.shown
  | lacks v field =>
    "'" ++ v.kind.name ++ "' object has no attribute '" ++ field ++ "'"
  | exhausted => exhaustion

end Refusal

structure Stack where
  /-- Whether there is room at a place. The kinds are those of what stands there and of the nodes
  around it, the innermost first. -/
  holds : List TreeKind → Bool

namespace Stack

/-- A stack that always has room. -/
def unbounded : Stack := ⟨fun _ => true⟩

/-- A stack with room for so many calls inside each other. -/
def levels (n : Nat) : Stack := ⟨fun path => path.length ≤ n⟩

/-- Comes to a place, if there is room. -/
def enter (k : Stack) (path : List TreeKind) : Except Refusal Unit :=
  if k.holds path then .ok () else .error .exhausted

end Stack

/-- A value as a numeral shows it: a whole number is written without a point. Only a number can be
asked whether it is whole. -/
def Value.numeral : Value → Except Refusal String
  | .number x => .ok x.compactText
  | v => .error (.lacks v "is_integer")

end OperatorGrammar
