import OperatorGrammar.Precedence
import OperatorGrammar.Token

/-!
The rules that an expression is read by. They are fixed while it is being read.
-/

namespace OperatorGrammar

structure Rules where
  table : PrecedenceTable
  /-- How many expressions may be open inside each other. -/
  maxDepth : Nat
  /-- Whether number texts that are no literals are refused. -/
  strictNumbers : Bool
deriving Repr

namespace Rules

/-- The precedence of a lexeme as an operator. -/
def precedence (rules : Rules) : Lexeme → Int
  | .char c => rules.table.precedence c
  | _ => PrecedenceTable.noPrecedence

def acceptsNumber (rules : Rules) (text : String) : Bool :=
  !rules.strictNumbers || Literal.isWellFormed text

end Rules

end OperatorGrammar
