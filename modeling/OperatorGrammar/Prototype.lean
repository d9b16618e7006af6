import OperatorGrammar.Location

/-!
Prototypes: how a function is called. Equality of prototypes ignores where they stand.
-/

namespace OperatorGrammar

/-- The name of a function and the names of its parameters. An empty name marks the anonymous
function around an expression at the top. -/
structure Prototype where
  name : String
  parameters : List String
  location : Option Location
deriving DecidableEq, Repr

namespace Prototype

def anonymous (location : Option Location) : Prototype := ⟨"", [], location⟩

def isAnonymous (p : Prototype) : Bool := p.name == ""

def arity (p : Prototype) : Nat := p.parameters.length

def same (p q : Prototype) : Bool := p.name == q.name && p.parameters == q.parameters

end Prototype

end OperatorGrammar
