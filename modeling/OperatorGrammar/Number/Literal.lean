import OperatorGrammar.Number.Decimal
import OperatorGrammar.Text.Digit

/-!
The value of a number literal. A literal is digits with at most one point and at least one digit,
and a text is read by its longest leading literal; what follows is ignored. A text that starts
with no literal counts as zero.
-/

namespace OperatorGrammar.Literal

open OperatorGrammar.Text

/-- The longest leading part of a text that is a literal, or nothing. -/
def longest (cs : List Char) : List Char :=
  let whole := cs.takeWhile isDecimalDigit
  match cs.dropWhile isDecimalDigit with
  | '.' :: rest =>
    let fraction := rest.takeWhile isDecimalDigit
    if whole.isEmpty && fraction.isEmpty then [] else whole ++ '.' :: fraction
  | _ => whole

/-- Whether a text as a whole is a literal. -/
def isWellFormed (text : String) : Bool :=
  !text.isEmpty && longest text.toList == text.toList

/-- The decimal number that a literal writes. -/
def decimal (cs : List Char) : Decimal :=
  let whole := cs.takeWhile (· != '.')
  let fraction := (cs.dropWhile (· != '.')).drop 1
  ⟨digitsValue (whole ++ fraction), -(fraction.length : Int)⟩

/-- The number that a text is read as. -/
def value (text : String) : Binary64 :=
  match longest text.toList with
  | [] => .zero
  | literal => .signed false (decimal literal).magnitude

theorem value_ne_nan (text : String) : value text ≠ .nan := by
  unfold value
  split <;> exact nofun

end OperatorGrammar.Literal
