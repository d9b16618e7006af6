import OperatorGrammar.Node

/-!
Chains of operands and operators. A chain becomes a tree by looking at the precedences alone: of
two operators the one of higher precedence binds tighter, and of two of equal precedence the left
one does.
-/

namespace OperatorGrammar.Expression

/-- An operator between two operands, with its precedence and place. -/
structure Joint where
  operator : String
  precedence : Int
  location : Location
deriving Repr

/-- The operands read so far, each with the operator behind it, the latest first. The operand
behind the latest operator is still to come. -/
abbrev Chain := List (Node × Joint)

namespace Chain

/-- Two operands with their operator as one tree. -/
def join (left : Node) (j : Joint) (right : Node) : Node :=
  .binary j.operator left right (some j.location)

/-- Joins the operators of `pending` from the latest on, with `right` as the last operand. -/
def joinAll (right : Node) : Chain → Node
  | [] => right
  | (left, j) :: pending => joinAll (join left j right) pending

/-- Joins those of the latest operators that bind at least as tightly as a precedence. -/
def joinTighter (precedence : Int) (right : Node) : Chain → Node × Chain
  | [] => (right, [])
  | (left, j) :: pending =>
    if precedence ≤ j.precedence then joinTighter precedence (join left j right) pending
    else (right, (left, j) :: pending)

/-- Goes through the operators from left to right. `pending` holds operators that bind ever more
tightly and still wait for the end of their right operand, which starts with `operand`. -/
def climb (pending : Chain) (operand : Node) : List (Joint × Node) → Node
  | [] => joinAll operand pending
  | (j, next) :: rest =>
    let (left, pending) := joinTighter j.precedence operand pending
    climb ((left, j) :: pending) next rest

/-- A chain in reading order, with its last operand: the first operand, and the others with the
operator in front of each. -/
def inOrder (c : Chain) (last : Node) : Node × List (Joint × Node) :=
  c.foldl (fun (first, rest) (operand, j) => (operand, (j, first) :: rest)) (last, [])

/-- The tree of a chain with its last operand. -/
def close (c : Chain) (last : Node) : Node :=
  let (first, rest) := c.inOrder last
  climb [] first rest

end Chain

end OperatorGrammar.Expression
