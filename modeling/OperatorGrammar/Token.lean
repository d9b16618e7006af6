import OperatorGrammar.Location
import OperatorGrammar.Number.Literal
import OperatorGrammar.Value

/-!
Tokens. A lexeme is a class of token with what it was read from; a token is a lexeme at a place.
-/

namespace OperatorGrammar

inductive Lexeme where
  | endOfInput
  /-- The word that opens a definition. -/
  | define
  /-- The word that opens an external declaration. -/
  | external
  | identifier (name : String)
  /-- A run of digits and points. -/
  | number (text : String)
  /-- Any other single character. -/
  | char (c : Char)
deriving DecidableEq, Repr, Inhabited

namespace Lexeme

/-- A word is an identifier unless it is one of the two keywords. -/
def ofWord (word : String) : Lexeme :=
  if word = "def" then define
  else if word = "extern" then external
  else identifier word

/-- The characters of a lexeme. -/
def text : Lexeme → String
  | endOfInput => ""
  | define => "def"
  | external => "extern"
  | identifier name => name
  | number text => text
  | char c => c.toString

/-- A lexeme as a diagnostic names it. -/
def description : Lexeme → String
  | endOfInput => "end of input"
  | define => "keyword 'def'"
  | external => "keyword 'extern'"
  | identifier name => "identifier '" ++ name ++ "'"
  | number text => "number '" ++ text ++ "'"
  | char c => "'" ++ c.toString ++ "'"

/-- The name of a lexeme's class. -/
def className : Lexeme → String
  | endOfInput => "EOF"
  | define => "DEF"
  | external => "EXTERN"
  | identifier _ => "IDENTIFIER"
  | number _ => "NUMBER"
  | char _ => "CHAR"

/-- What a lexeme stands for: numbers stand for their value, and all other lexemes but the end of
the input for their characters. -/
def value : Lexeme → Value
  | endOfInput => .nothing
  | number text => .number (Literal.value text)
  | l => .text l.text

end Lexeme

structure Token where
  lexeme : Lexeme
  location : Location
deriving DecidableEq, Repr, Inhabited

namespace Token

def isChar (t : Token) (c : Char) : Bool := t.lexeme == .char c

/-- A token as a listing shows it: its class, its value if it has one, its line and column. -/
def shown (t : Token) : String :=
  let value :=
    match t.lexeme.value with
    | .nothing => ""
    | v => v.shown ++ ", "
  "Token(" ++ t.lexeme.className ++ ", " ++ value ++ toString t.location.line ++ ":" ++
    toString t.location.column ++ ")"

end Token

end OperatorGrammar
