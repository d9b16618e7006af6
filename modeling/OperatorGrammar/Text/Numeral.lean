import OperatorGrammar.Text.Digit

/-!
What all numerals that a user writes have in common: blanks around them, one sign in front, and
digits of any script, which may be parted by single underscores.
-/

namespace OperatorGrammar.Text

/-- The blanks that may surround a numeral. -/
def isBlank (c : Char) : Bool :=
  let n := c.toNat
  (0x09 ≤ n && n ≤ 0x0D) || n == 0x20 || n == 0x85 || n == 0xA0 || n == 0x1680 ||
    (0x2000 ≤ n && n ≤ 0x200A) || n == 0x2028 || n == 0x2029 || n == 0x202F || n == 0x205F ||
    n == 0x3000

def trimBlanks (text : List Char) : List Char :=
  ((text.dropWhile isBlank).reverse.dropWhile isBlank).reverse

/-- Whether there is a minus sign, and what follows the sign, which may be left out. -/
def splitSign : List Char → Bool × List Char
  | '-' :: rest => (true, rest)
  | '+' :: rest => (false, rest)
  | rest => (false, rest)

def startsWithDigit : List Char → Bool
  | [] => false
  | c :: _ => isDecimalDigit c

/-- A text without its underscores, each of which has to have a digit on either side. -/
def ungrouped? (behindDigit : Bool) : List Char → Option (List Char)
  | [] => some []
  | '_' :: rest =>
    if behindDigit && startsWithDigit rest then ungrouped? false rest else none
  | c :: rest => (ungrouped? (isDecimalDigit c) rest).map (c :: ·)

/-- The value of a list that holds nothing but decimal digits. -/
def allDigits? (digits : List Char) : Option Nat :=
  if digits.all isDecimalDigit then some (digitsValue digits) else none

example : ungrouped? false "1_0.5".toList = some "10.5".toList ∧
    ungrouped? false "1__0".toList = none ∧ ungrouped? false "_1".toList = none ∧
    ungrouped? false "1_".toList = none := by decide

end OperatorGrammar.Text
