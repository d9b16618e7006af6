import OperatorGrammar.Text.Numeral

/-!
Integers as a user writes them. Leading zeros are allowed. A text of more than 4300 digits is
refused.
-/

namespace OperatorGrammar.Text

/-- The most digits an integer may be written with. -/
def maxIntegerDigits : Nat := 4300

/-- The integer that a text writes, if it writes one. -/
def integer? (text : List Char) : Option Int :=
  let (negative, rest) := splitSign (trimBlanks text)
  match ungrouped? false rest with
  | none | some [] => none
  | some digits =>
    match allDigits? digits with
    | none => none
    | some n =>
      if maxIntegerDigits < digits.length then none
      else if negative then some (-(n : Int))
      else some n

example : integer? "  -1_0 ".toList = some (-10) ∧ integer? "1__0".toList = none ∧
    integer? "+".toList = none ∧ integer? "- 1".toList = none := by decide

end OperatorGrammar.Text
