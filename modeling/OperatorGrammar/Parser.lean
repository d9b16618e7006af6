import OperatorGrammar.Expression.Reader
import OperatorGrammar.Prototype.Reader

/-!
The parser: the tokens to come, of which the first is the lookahead once it has been asked for,
and one function for each thing that can be read from them. Each of them returns what it read, or
the failure, with the parser as it is then. A failure leaves the token that shows it as the
lookahead.
-/

namespace OperatorGrammar

structure Parser where
  rules : Rules
  upcoming : Upcoming
  /-- Whether the lookahead has been asked for. -/
  primed : Bool
  /-- How many expressions are open. -/
  opened : Nat

namespace Parser

def start (rules : Rules) (file : String) (source : Source) : Parser :=
  ⟨rules, .ofSource file source, false, 0⟩

def lookahead? (p : Parser) : Option Scanned := if p.primed then some p.upcoming.head else none

/-- The lines known by now. -/
def window (p : Parser) : LineWindow := if p.primed then p.upcoming.head.window else .start

/-- How many characters have been asked for by now. -/
def requests (p : Parser) : Nat := if p.primed then p.upcoming.head.requests else 0

/-- Asks for the first token, unless that has been done. -/
def prime (p : Parser) : Parser := { p with primed := true }

/-- Moves on behind the lookahead. -/
def next (p : Parser) : Parser := { p with upcoming := p.upcoming.advance }

/-- Asks for a token: the first, or the one behind the lookahead. -/
def advance (p : Parser) : Parser := if p.primed then p.next else p.prime

/-- The precedence of the lookahead as an operator. -/
def precedence (p : Parser) : Int := p.rules.precedence p.upcoming.lexeme

/-- Changes the operator table. -/
def setOperator (p : Parser) (operator precedence : Value) : Except ConfigurationError Parser :=
  (p.rules.table.set operator precedence).map fun table =>
    { p with rules := { p.rules with table := table } }

/-- Runs an expression reader. -/
def run (p : Parser) (r : Expression.Reader) : Except Failure Node × Parser :=
  let ending := r.run p.rules p.upcoming
  (ending.result,
    { p with upcoming := p.upcoming.withTokens ending.rest, opened := ending.opened })

def expression (p : Parser) : Except Failure Node × Parser := p.run (.expression p.opened)

def operand (p : Parser) : Except Failure Node × Parser := p.run (.operand p.opened)

/-- Reads an expression in parentheses. The lookahead is taken for the opening one. -/
def group (p : Parser) : Except Failure Node × Parser := p.next.run (.group p.opened)

/-- Reads the rest of a chain after its first operand, as far as its operators have at least the
precedence `least`. -/
def chainRest (least : Int) (first : Node) (p : Parser) : Except Failure Node × Parser :=
  p.run (.rest least first p.opened)

/-- Reads a name or a call. What the lookahead stands for is taken for the name. A call needs one
that says something. -/
def name (p : Parser) : Except Failure Node × Parser :=
  let t := p.upcoming.head.token
  let (result, p) := p.next.run (.name t.lexeme.value t.location p.opened)
  match result with
  | .ok (.call callee _ _) =>
    if callee.isVoid then (.error ⟨.unnamedCallee, p.upcoming.head⟩, p) else (result, p)
  | _ => (result, p)

/-- Reads a number. What the lookahead stands for is taken for it, unless numbers are strict and
its text is no literal. -/
def number (p : Parser) : Except Failure Node × Parser :=
  let t := p.upcoming.head
  let text := t.token.lexeme.text
  if p.rules.acceptsNumber text then
    (.ok (.number t.token.lexeme.value (some t.token.location)), p.next)
  else (.error ⟨.malformedNumber text, t⟩, p)

def prototype (p : Parser) : Except Failure Prototype × Parser :=
  let (result, rest) := Prototype.read p.upcoming
  (result, { p with upcoming := rest })

/-- Reads an external declaration. The lookahead is taken for its keyword. -/
def external (p : Parser) : Except Failure Node × Parser :=
  let (result, p) := p.next.prototype
  (result.map .prototype, p)

/-- Reads a definition. The lookahead is taken for its keyword. -/
def definition (p : Parser) : Except Failure Node × Parser :=
  let location := p.upcoming.head.token.location
  match p.next.prototype with
  | (.error f, p) => (.error f, p)
  | (.ok prototype, p) =>
    let (body, p) := p.expression
    (body.map fun b => .function prototype b (some location), p)

/-- Reads an expression and wraps it into an anonymous function. -/
def topLevelExpression (p : Parser) : Except Failure Node × Parser :=
  let location := some p.upcoming.head.token.location
  let (body, p) := p.expression
  (body.map fun b => .function (.anonymous location) b location, p)

end Parser

end OperatorGrammar
