import OperatorGrammar.Node.Refusal

/-!
Visits. A visitor goes through a tree in preorder and is called on what it watches, by the names of
classes. A class that it watches may be closed, and then it does not look below: a node is left
unopened, and a foreign value is passed over. Any other foreign value that it comes to stops it, and
so does the stack, if it has no room.
-/

namespace OperatorGrammar

structure Visitor where
  watches : String → Bool
  /-- Whether what is watched is left unopened. -/
  closes : String → Bool
  /-- The room for the calls on what stands in a tree. -/
  calling : Stack
  /-- The room for looking below that. -/
  opening : Stack

/-- A visit, which keeps what the visitor was called on, the latest first. -/
abbrev Visiting := ExceptT Refusal (StateM (List Node))

namespace Visitor

/-- Whether the visitor looks below what is of a class. -/
def enters (v : Visitor) (className : String) : Bool := !(v.watches className && v.closes className)

/-- Comes to what stands below nodes of the kinds `above`, and goes on with what is below it unless
that is left unopened. -/
def comeTo (v : Visitor) (above : List TreeKind) (n : Node) (below : Visiting Unit) :
    Visiting Unit := do
  v.calling.enter (n.kind :: above)
  if v.watches n.kind.name then modify (n :: ·)
  if v.enters n.kind.name then
    v.opening.enter (n.kind :: above)
    below

mutual

def visitUnder (v : Visitor) (above : List TreeKind) : Node → Visiting Unit
  | n@(.number ..) | n@(.reference ..) | n@(.prototype _) => v.comeTo above n (pure ())
  | n@(.binary _ left right _) => v.comeTo above n do
    visitUnder v (n.kind :: above) left
    visitUnder v (n.kind :: above) right
  | n@(.call _ arguments _) => v.comeTo above n (visitAllUnder v (n.kind :: above) arguments)
  | n@(.function p body _) => v.comeTo above n do
    v.comeTo (n.kind :: above) (.prototype p) (pure ())
    visitUnder v (n.kind :: above) body
  | n@(.foreign value) => v.comeTo above n (throw (.notANode value))

def visitAllUnder (v : Visitor) (above : List TreeKind) : List Node → Visiting Unit
  | [] => return
  | a :: as => do
    visitUnder v above a
    visitAllUnder v above as

end

/-- What the visitor is called on in a tree, in order, and what stops it, if something does. -/
def calls (v : Visitor) (n : Node) : List Node × Option Refusal :=
  let (done, seen) := (v.visitUnder [] n).run []
  (seen.reverse,
    match done with
    | .ok () => none
    | .error r => some r)

/-- The kinds of what the visitor is called on, and what stops it. -/
def visit (v : Visitor) (n : Node) : List TreeKind × Option Refusal :=
  let (seen, stopped) := v.calls n
  (seen.map Node.kind, stopped)

end Visitor

end OperatorGrammar
