import OperatorGrammar.Diagnostic
import OperatorGrammar.Upcoming

/-!
Why the text at hand is not what the grammar asks for. A failure is a fault at the token that
shows it; its diagnostic words the fault and quotes the line that the token is on.
-/

namespace OperatorGrammar

/-- What the grammar asks for and does not find. -/
inductive Expected where
  | closing
  | closingOrComma
  | functionName
  | parametersOpening
  | parametersClosing
deriving DecidableEq, Repr

namespace Expected

def message : Expected → String
  | closing => "expected ')'"
  | closingOrComma => "expected ')' or ',' in argument list"
  | functionName => "expected function name in prototype"
  | parametersOpening => "expected '(' in prototype"
  | parametersClosing => "expected ')' in prototype"

/-- A hint that depends on what is found instead. -/
def hint? (e : Expected) (found : Lexeme) : Option String :=
  if e = parametersClosing ∧ found = .char ',' then
    some "parameter names are separated by spaces, not commas"
  else none

end Expected

inductive Fault where
  /-- The token cannot start an expression. -/
  | unexpected
  | missing (expected : Expected)
  | malformedNumber (text : String)
  | duplicateParameter (name : String)
  | nestingTooDeep (limit : Nat)
  /-- A call by a token that gives no name. -/
  | unnamedCallee
deriving DecidableEq, Repr

namespace Fault

/-- The fault in words, where `found` is the lexeme that shows it. -/
def cause (found : Lexeme) : Fault → Cause
  | unexpected => .unexpected (some found.description) Cause.cannotStart
  | missing expected =>
    .missing expected.message (some found.description) (expected.hint? found)
  | malformedNumber text => .malformedNumber text
  | duplicateParameter name => .duplicateParameter name
  | nestingTooDeep limit => .nestingTooDeep limit
  | unnamedCallee => .general "Call requires a callee name" none

end Fault

structure Failure where
  fault : Fault
  token : Scanned
deriving Repr

namespace Failure

def location (f : Failure) : Location := f.token.token.location

def diagnostic (f : Failure) : Diagnostic :=
  ⟨f.fault.cause f.token.token.lexeme, some f.location, f.token.sourceLine⟩

end Failure

end OperatorGrammar
