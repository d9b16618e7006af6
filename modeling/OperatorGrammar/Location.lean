/-!
Places in the input. Lines and columns count from one; a caller may name any other place too.
-/

namespace OperatorGrammar

/-- A line and a column of a named input. -/
structure Location where
  file : String
  line : Int
  column : Int
deriving DecidableEq, Repr, Inhabited

namespace Location

def text (l : Location) : String :=
  l.file ++ ":" ++ toString l.line ++ ":" ++ toString l.column

end Location

end OperatorGrammar
