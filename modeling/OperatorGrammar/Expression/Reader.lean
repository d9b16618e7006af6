import OperatorGrammar.Expression.Chain
import OperatorGrammar.Fault
import OperatorGrammar.Rules

/-!
Reading an expression token by token. An expression is a chain of operands and operators; an
operand is a number, a name, a call or an expression in parentheses. The reader keeps a level for
each parenthesis that is open and says of each token either how it goes on behind it or, if the
token cannot be taken in, how the reading ends in front of it. Unless the expressions nest too
deep, what has been taken in can be completed to an expression, so the first token that is refused
is where the trouble is. Main statements: `runOn_length_le`, reading leaves no more tokens than
there were, and `runOn_length_lt`, fewer if an expression has been read.
-/

namespace OperatorGrammar.Expression

/-- What a parenthesis was opened for. -/
inductive Enclosure where
  | group
  /-- The arguments of a call, with those already read, the latest first. -/
  | call (callee : Value) (location : Location) (arguments : List Node)

/-- An open parenthesis and the chain in front of it, of which it will be an operand. -/
structure Level where
  chain : Chain
  enclosure : Enclosure

/-- How far the innermost expression has got. -/
inductive Progress where
  /-- Nothing of it has been read. -/
  | entering
  /-- An operand has to follow. -/
  | operand
  /-- The arguments of a call have just been opened. -/
  | arguments (callee : Value) (location : Location)
  /-- A name has been read; a parenthesis would make it a call. -/
  | named (name : Value) (location : Location)
  /-- An operand is complete. -/
  | complete (operand : Node)

/-- What is to be read. -/
inductive Goal where
  /-- A single operand. -/
  | operand
  /-- An expression. -/
  | expression
  /-- The rest of a chain, as far as its operators have at least a precedence. -/
  | rest (least : Int)

structure Reader where
  goal : Goal
  /-- The open parentheses, the innermost first. -/
  levels : List Level
  /-- The chain of the innermost expression. -/
  chain : Chain
  progress : Progress
  /-- How many expressions are open, those around the goal included. -/
  opened : Nat

namespace Reader

/-- Starts with an expression, where a number of others are open around it. -/
def expression (opened : Nat) : Reader := ⟨.expression, [], [], .entering, opened⟩

def operand (opened : Nat) : Reader := ⟨.operand, [], [], .operand, opened⟩

/-- Starts behind an opening parenthesis. -/
def group (opened : Nat) : Reader := ⟨.operand, [⟨[], .group⟩], [], .entering, opened⟩

/-- Starts behind a name. -/
def name (name : Value) (location : Location) (opened : Nat) : Reader :=
  ⟨.operand, [], [], .named name location, opened⟩

/-- Starts behind the first operand of a chain. -/
def rest (least : Int) (first : Node) (opened : Nat) : Reader :=
  ⟨.rest least, [], [], .complete first, opened⟩

/-- The least precedence of an operator that goes on with the innermost chain. There is none if
the goal is a single operand and no parenthesis is open. -/
def leastPrecedence (r : Reader) : Option Int :=
  match r.levels, r.goal with
  | _ :: _, _ | [], .expression => some 0
  | [], .rest least => some least
  | [], .operand => none

/-- Whether a lexeme goes on with the innermost chain. -/
def takesOperator (rules : Rules) (r : Reader) (lexeme : Lexeme) : Bool :=
  match r.leastPrecedence with
  | none => false
  | some least => least ≤ rules.precedence lexeme

/-- Opens an expression, if that many may be open. -/
def enter? (rules : Rules) (r : Reader) : Option Reader :=
  if r.opened < rules.maxDepth then
    some { r with opened := r.opened + 1, progress := .operand }
  else none

/-- Opens a level, and an expression in it. -/
def push (r : Reader) (enclosure : Enclosure) : Reader :=
  { r with levels := ⟨r.chain, enclosure⟩ :: r.levels, chain := [], progress := .entering }

/-- Takes in the first token of an operand. -/
def readOperand? (rules : Rules) (r : Reader) (t : Token) : Option Reader :=
  match t.lexeme with
  | .identifier name => some { r with progress := .named (.text name) t.location }
  | .number text =>
    if rules.acceptsNumber text then
      let value := .number (Literal.value text)
      some { r with progress := .complete (.number value (some t.location)) }
    else none
  | .char c => if c = '(' then some (r.push .group) else none
  | _ => none

/-- Takes in the token behind a complete operand: an operator, or what ends the expression in the
innermost parenthesis. The least precedence may be below that of what is no operator, as it is only
for the rest of a chain that is asked for by itself. Then every token is taken for an operator and
the reading fails at the end of the input at the latest (`Parser.chainRest_of_neg`), so what the
chain notes of such a token is never seen. -/
def readOn? (rules : Rules) (r : Reader) (e : Node) (t : Token) :
    Option Reader :=
  if r.takesOperator rules t.lexeme then
    let j : Joint := ⟨t.lexeme.text, rules.precedence t.lexeme, t.location⟩
    some { r with chain := (e, j) :: r.chain, progress := .operand }
  else
    match r.levels with
    | [] => none
    | ⟨outer, enclosure⟩ :: levels =>
      let inner := r.chain.close e
      let left := { r with levels := levels, chain := outer, opened := r.opened - 1 }
      match enclosure with
      | .group => if t.isChar ')' then some { left with progress := .complete inner } else none
      | .call f l arguments =>
        if t.isChar ')' then
          let call := .call f (inner :: arguments).reverse (some l)
          some { left with progress := .complete call }
        else if t.isChar ',' then some (left.push (.call f l (inner :: arguments)))
        else none

/-- The reader behind a token; there is none if the token is not taken in. -/
def read? (rules : Rules) (r : Reader) (t : Token) : Option Reader :=
  match r.progress with
  | .entering => (r.enter? rules).bind (readOperand? rules · t)
  | .operand => r.readOperand? rules t
  | .arguments f l =>
    if t.isChar ')' then some { r with progress := .complete (.call f [] (some l)) }
    else ((r.push (.call f l [])).enter? rules).bind (readOperand? rules · t)
  | .named name l =>
    if t.isChar '(' then some { r with progress := .arguments name l }
    else r.readOn? rules (.reference name (some l)) t
  | .complete e => r.readOn? rules e t

/-- Why a lexeme does not start an operand. -/
def operandFault : Lexeme → Fault
  | .number text => .malformedNumber text
  | _ => .unexpected

/-- Why an expression does not start with a lexeme. -/
def entryFault (rules : Rules) (r : Reader) (lexeme : Lexeme) : Fault :=
  if r.opened < rules.maxDepth then operandFault lexeme else .nestingTooDeep rules.maxDepth

/-- The end in front of a token behind a complete operand. The end of the input is never taken
in; if it counts as an operator, then it stands where an operand should. -/
def endOn (rules : Rules) (r : Reader) (e : Node) (lexeme : Lexeme) :
    Except Fault Node :=
  match r.levels with
  | [] => if r.takesOperator rules lexeme then .error .unexpected else .ok (r.chain.close e)
  | ⟨_, .group⟩ :: _ => .error (.missing .closing)
  | ⟨_, .call ..⟩ :: _ => .error (.missing .closingOrComma)

/-- How the reading ends in front of a lexeme that is not taken in. -/
def endBefore (rules : Rules) (r : Reader) (lexeme : Lexeme) : Except Fault Node :=
  match r.progress with
  | .entering | .arguments .. => .error (r.entryFault rules lexeme)
  | .operand => .error (operandFault lexeme)
  | .named name l => r.endOn rules (.reference name (some l)) lexeme
  | .complete e => r.endOn rules e lexeme

/-- How many expressions the reader has opened and not closed. -/
def openHere (r : Reader) : Nat :=
  let innermost :=
    match r.progress with
    | .entering => 0
    | _ => 1
  let outermost :=
    match r.goal with
    | .expression => 0
    | _ => 1
  r.levels.length + innermost - outermost

/-- How many expressions are left open when the reading is over, however it has ended. -/
def leftOpen (r : Reader) : Nat := r.opened - r.openHere

/-- How a reading ended. -/
structure Ending where
  result : Except Failure Node
  /-- The tokens that are left before the end of the input. -/
  rest : List Scanned
  /-- How many expressions are open. -/
  opened : Nat

/-- Reads the tokens before the end of the input, which is `last`. -/
def runOn (rules : Rules) (last : Scanned) (r : Reader) : List Scanned → Ending
  | [] =>
    ⟨(r.endBefore rules last.token.lexeme).mapError (⟨·, last⟩), [], r.leftOpen⟩
  | t :: rest =>
    match r.read? rules t.token with
    | some r => runOn rules last r rest
    | none =>
      ⟨(r.endBefore rules t.token.lexeme).mapError (⟨·, t⟩), t :: rest, r.leftOpen⟩

def run (rules : Rules) (r : Reader) (u : Upcoming) : Ending :=
  r.runOn rules u.last u.tokens

theorem runOn_length_le (rules : Rules) (last : Scanned) (r : Reader)
    (ts : List Scanned) : (r.runOn rules last ts).rest.length ≤ ts.length := by
  induction ts generalizing r with
  | nil => simp [runOn]
  | cons t rest ih =>
    simp only [runOn]
    split
    · exact Nat.le_succ_of_le (ih _)
    · exact Nat.le_refl _

/-- An expression has at least one token. -/
theorem runOn_length_lt {rules : Rules} {last : Scanned} {r : Reader}
    {ts : List Scanned} {n : Node} (hr : r.progress = .entering)
    (h : (r.runOn rules last ts).result = .ok n) :
    (r.runOn rules last ts).rest.length < ts.length := by
  cases ts with
  | nil =>
    simp only [runOn, endBefore, hr] at h
    cases h
  | cons t rest =>
    simp only [runOn] at h ⊢
    split
    · exact Nat.lt_succ_of_le (runOn_length_le ..)
    · rename_i hn
      simp only [hn, endBefore, hr] at h
      cases h

end Reader

end OperatorGrammar.Expression
