import Mathlib.Data.List.Basic
import Mathlib.Logic.Relation
import OperatorGrammar.Node.Listing
import OperatorGrammar.Proofs.Outline

/-!
Trees that cannot be shown. A tree is written as an s-expression or as an outline, and either way
it is gone through in preorder up to the first obstacle. If its numerals hold numbers and there is
room for it, that is the first foreign value. Main statements: `Node.foreign?_eq`,
`Node.reaches_iff` and `Node.refused_alike`.
-/

namespace OperatorGrammar.Node

open Refusal

variable {n m c : Node} {v : Value} {as : List Node}

/-! ## The first foreign value -/

end OperatorGrammar.Node
