import OperatorGrammar.Number.Binary64
import OperatorGrammar.Text.Numeral

/-!
Decimal text of binary64 numbers. A finite magnitude is written with the fewest significant digits
that read back as it; among those the nearest are taken, and of two equally near ones the even.
The reader takes the same texts back, and every other way to write a number with a sign, a point
and an exponent.
-/

namespace OperatorGrammar

/-- The number `digits * 10 ^ exponent`. -/
structure Decimal where
  digits : Nat
  exponent : Int
deriving DecidableEq, Repr

namespace Decimal

def magnitude (d : Decimal) : Magnitude := .ofDecimal d.digits d.exponent

/-- Where the point stands, counted from the first digit. -/
def point (d : Decimal) : Int := Magnitude.digitCount d.digits + d.exponent

/-- The digits without the zeros at the end, but for the digit of zero itself. -/
def significant (d : Decimal) : List Char :=
  match (Nat.toDigits 10 d.digits).reverse.dropWhile (· == '0') with
  | [] => ['0']
  | ds => ds.reverse

end Decimal

namespace Magnitude

/-- The number of digits that a positive quotient has before the point. It is negative if zeros
follow the point. -/
def decimalOrder (num den : Nat) : Int :=
  let n : Int := (digitCount num : Int) - (digitCount den : Int)
  if den * Nat.pow 10 n.toNat ≤ num * Nat.pow 10 (-n).toNat then n + 1 else n

/-- All digits of a finite magnitude. -/
def allDigits (x : Magnitude) : Decimal :=
  if 0 ≤ x.exponent then ⟨x.quotient.1, 0⟩
  else ⟨x.quotient.1 * Nat.pow 5 (-x.exponent).toNat, x.exponent⟩

/-- The multiple of `10 ^ exponent` that reads back as the magnitude, if there is one. Only the
two neighbours of the magnitude come into question; of two, the nearer is taken. -/
def onGrid? (x : Magnitude) (exponent : Int) : Option Decimal :=
  let num := x.quotient.1 * Nat.pow 10 (-exponent).toNat
  let den := x.quotient.2 * Nat.pow 10 exponent.toNat
  let below : Decimal := ⟨num / den, exponent⟩
  let above : Decimal := ⟨num / den + 1, exponent⟩
  if below.magnitude = x then
    if above.magnitude = x then some ⟨roundHalfEven num den, exponent⟩ else some below
  else if above.magnitude = x then some above
  else none

/-- The shortest digits that read back as a finite magnitude: the coarsest of the grids with 1 to
17 digits that has a hit. -/
def shortest (x : Magnitude) : Decimal :=
  let order := decimalOrder x.quotient.1 x.quotient.2
  ((List.range 17).findSome? fun n => x.onGrid? (order - (n + 1 : Nat))).getD x.allDigits

end Magnitude

/-- How decimals are laid out. A decimal whose first digit counts `10 ^ e` is positional for
`leastPositional ≤ e < mostPositional`; otherwise it is written with an exponent of a sign and at
least `exponentWidth` digits. -/
structure DecimalLayout where
  leastPositional : Int
  mostPositional : Int
  exponentWidth : Nat

namespace DecimalLayout

/-- The digits with a point in them. Zeros fill up the gap to the point, and one digit at least
stands on either side. -/
def positional (ds : List Char) (point : Int) : List Char :=
  if point ≤ 0 then '0' :: '.' :: (List.replicate (-point).toNat '0' ++ ds)
  else if point.toNat < ds.length then ds.take point.toNat ++ '.' :: ds.drop point.toNat
  else ds ++ List.replicate (point.toNat - ds.length) '0' ++ ['.', '0']

/-- One digit, a point if more digits follow, and the exponent. -/
def scientific (layout : DecimalLayout) (ds : List Char) (exponent : Int) : List Char :=
  let width := Nat.toDigits 10 exponent.natAbs
  let power := (if exponent < 0 then '-' else '+') ::
    (List.replicate (layout.exponentWidth - width.length) '0' ++ width)
  match ds with
  | [] => 'e' :: power
  | [d] => d :: 'e' :: power
  | d :: rest => d :: '.' :: (rest ++ 'e' :: power)

def layOut (layout : DecimalLayout) (d : Decimal) : List Char :=
  let e := d.point - 1
  if layout.leastPositional ≤ e ∧ e < layout.mostPositional then positional d.significant d.point
  else layout.scientific d.significant e

end DecimalLayout

namespace Binary64

/-- Numbers from `0.0001` up to below `10 ^ 16` are positional. -/
def layout : DecimalLayout := ⟨-4, 16, 2⟩

/-- The shortest text of a number that reads back as it. -/
def text : Binary64 → String
  | nan => "nan"
  | signed negative m =>
    let sign := if negative then ['-'] else []
    let body :=
      if !m.isFinite then ['i', 'n', 'f']
      else if m.rank = 0 then ['0', '.', '0']
      else layout.layOut m.shortest
    String.ofList (sign ++ body)

/-- A whole number is written with all its digits and without a point, and zero without a sign;
other numbers as `text` has them. -/
def compactText (x : Binary64) : String :=
  match x with
  | nan => x.text
  | signed negative m =>
    if m.isWhole then
      (if negative && m.whole != 0 then "-" else "") ++ toString m.whole
    else x.text

/-- An exponent: digits with at most one sign. -/
def exponent? (cs : List Char) : Option Int :=
  match Text.splitSign cs with
  | (_, []) => none
  | (negative, ds) =>
    (Text.allDigits? ds).map fun n => if negative then -(n : Int) else (n : Int)

/-- Digits with at most one point, at least one digit among them. -/
def mantissa? (cs : List Char) : Option Decimal :=
  let whole := cs.takeWhile (· != '.')
  let fraction := (cs.dropWhile (· != '.')).drop 1
  if whole.isEmpty && fraction.isEmpty then none
  else (Text.allDigits? (whole ++ fraction)).map fun n => ⟨n, -(fraction.length : Int)⟩

/-- A decimal number without a sign. -/
def unsigned? (cs : List Char) : Option Magnitude :=
  match cs.map Char.toLower with
  | ['i', 'n', 'f'] | ['i', 'n', 'f', 'i', 'n', 'i', 't', 'y'] => some .infinity
  | low =>
    let power := (low.dropWhile (· != 'e')).drop 1
    match mantissa? (low.takeWhile (· != 'e')) with
    | none => none
    | some d =>
      if low.contains 'e' then
        (exponent? power).map fun e => Decimal.magnitude ⟨d.digits, d.exponent + e⟩
      else some d.magnitude

/-- The number that a text writes: a decimal number, infinity or what is not a number. -/
def ofText? (s : String) : Option Binary64 :=
  let (negative, rest) := Text.splitSign (Text.trimBlanks s.toList)
  match Text.ungrouped? false rest with
  | none => none
  | some cs =>
    if cs.map Char.toLower = ['n', 'a', 'n'] then some nan
    else (unsigned? cs).map (signed negative)

end Binary64

end OperatorGrammar
