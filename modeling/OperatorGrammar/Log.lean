import OperatorGrammar.Node.SExpression
import OperatorGrammar.Session

/-!
The log of a session. Each event that concerns the log gives one record. That of a definition shows
its text. A stack that has no room for that text lets the definition not become an event, and a
stack that has room gives the text that is given where there is always room, so which stack it was
is not said with the event.
-/

namespace OperatorGrammar

inductive LogLevel where
  | debug | info | warning
deriving DecidableEq, Repr

namespace LogLevel

def name : LogLevel → String
  | debug => "DEBUG"
  | info => "INFO"
  | warning => "WARNING"

def severity : LogLevel → Nat
  | debug => 0
  | info => 1
  | warning => 2

end LogLevel

structure LogRecord where
  level : LogLevel
  logger : String
  message : String
deriving DecidableEq, Repr

namespace LogRecord

/-- A record as a line of text. -/
def line (r : LogRecord) : String := r.level.name ++ " " ++ r.logger ++ ": " ++ r.message

def isAtLeast (r : LogRecord) (level : LogLevel) : Bool := level.severity ≤ r.level.severity

end LogRecord

/-- The record of a token that has been scanned. The end of the input leaves none. -/
def Scanned.record? (t : Scanned) : Option LogRecord :=
  if t.token.lexeme = .endOfInput then none
  else some ⟨.debug, "kaleido.frontend.lexer", "scanned " ++ t.token.shown⟩

namespace Event

def record? : Event → Option LogRecord
  | .scanned t => t.record?
  | .defined function =>
    match function.sexpr with
    | .ok text => some ⟨.debug, "kaleido.frontend.parser", "parsed definition " ++ text⟩
    | .error _ => none
  | .recovering f =>
    some ⟨.info, "kaleido.frontend.driver",
      "recovering from error at " ++ f.location.text ++ ": " ++ f.diagnostic.message⟩
  | .succeeded kind => some ⟨.info, "kaleido.frontend.driver", kind.successMessage⟩
  | .stopping errors =>
    some ⟨.warning, "kaleido.frontend.driver",
      "stopping after " ++ toString errors ++ " errors"⟩
  | .prompted _ | .yielded _ => none

/-- The records of events from a level on. -/
def records (level : LogLevel) (events : List Event) : List LogRecord :=
  (events.filterMap record?).filter (·.isAtLeast level)

end Event

end OperatorGrammar
