import OperatorGrammar.Location
import OperatorGrammar.Value

/-!
Diagnostics: what went wrong, where, and the line of source that shows it. The text gives the
place and the message, then the line with a caret under the column, then a hint.
-/

namespace OperatorGrammar

/-- What a diagnostic is about. -/
inductive Cause where
  /-- Any trouble with an input. -/
  | general (message : String) (hint : Option String)
  /-- A report on several troubles, whose message is the whole text. -/
  | report (message : String) (hint : Option String)
  /-- Any violation of the grammar. -/
  | grammar (message : String) (hint : Option String)
  /-- A token that cannot start what is being read. -/
  | unexpected (found : Option String) (message : String)
  /-- A token that has to be there and is not. -/
  | missing (message : String) (found hint : Option String)
  /-- A number that is no literal. -/
  | malformedNumber (literal : String)
  /-- A parameter that is named twice. -/
  | duplicateParameter (name : String)
  /-- Expressions that nest too deep. -/
  | nestingTooDeep (limit : Int)
deriving DecidableEq, Repr

namespace Cause

/-- The message about an unexpected token, unless another one is given. -/
def cannotStart : String := "unknown token when expecting an expression"

def message : Cause → String
  | general message _ | report message _ | grammar message _ => message
  | unexpected _ message | missing message _ _ => message
  | malformedNumber literal => "malformed number literal '" ++ literal ++ "'"
  | duplicateParameter name => "duplicate parameter '" ++ name ++ "' in prototype"
  | nestingTooDeep limit => "expression nested deeper than " ++ toString limit ++ " levels"

/-- The hint. Where a token is missing and no other hint is given, it says what was found. -/
def hint? : Cause → Option String
  | general _ hint | report _ hint | grammar _ hint => hint
  | unexpected found _ => some ("found " ++ found.getD Value.nothing.shown)
  | missing _ _ (some hint) => some hint
  | missing _ found none => found.map ("found " ++ ·)
  | malformedNumber _ => some "a number has digits and at most one '.'"
  | duplicateParameter _ => none
  | nestingTooDeep _ => some "raise the limit with --max-depth"

end Cause

structure Diagnostic where
  cause : Cause
  location : Option Location
  sourceLine : Option String
deriving DecidableEq, Repr

namespace Diagnostic

def message (d : Diagnostic) : String := d.cause.message

def hint? (d : Diagnostic) : Option String := d.cause.hint?

/-- The line of source, moved in by four columns, and the caret under the place's column. There
is no caret if the column is not positive. -/
def excerpt (l : Location) (line : String) : List String :=
  ("    " ++ line) ::
    if 0 < l.column then [String.ofList (List.replicate (l.column.toNat + 3) ' ' ++ ['^'])] else []

/-- The lines of the text. -/
def lines (d : Diagnostic) : List String :=
  let header :=
    match d.location with
    | some l => l.text ++ ": error: " ++ d.message
    | none => "error: " ++ d.message
  let shown :=
    match d.location, d.sourceLine with
    | some l, some line => excerpt l line
    | _, _ => []
  let advice :=
    match d.hint? with
    | none => []
    | some hint => if hint = "" then [] else ["hint: " ++ hint]
  header :: shown ++ advice

def text (d : Diagnostic) : String :=
  match d.cause with
  | .report message _ => message
  | _ => "\n".intercalate d.lines

end Diagnostic

end OperatorGrammar
