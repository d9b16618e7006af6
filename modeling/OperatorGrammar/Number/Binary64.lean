/-!
Binary64 numbers, kept exactly. The non-negative binary64 values are listed in increasing order
and a value is known by its *rank* in that list; ranks run over zero, the subnormal numbers, the
normal numbers and end with infinity. The rank of a quotient is found by rounding to nearest, an
exact half going to the even rank.
-/

namespace OperatorGrammar

/-- The rank of infinity, one above that of the largest finite value. -/
def infinityRank : Nat := 2047 * Nat.pow 2 52

/-- A non-negative binary64 value, known by its place in the increasing list of all of them. -/
structure Magnitude where
  rank : Nat
  rank_le : rank ≤ infinityRank
deriving DecidableEq, Repr

namespace Magnitude

def zero : Magnitude := ⟨0, Nat.zero_le _⟩

def infinity : Magnitude := ⟨infinityRank, Nat.le_refl _⟩

/-- Ranks past the last one stand for infinity. -/
def ofRank (rank : Nat) : Magnitude := ⟨min rank infinityRank, Nat.min_le_right _ _⟩

def isFinite (x : Magnitude) : Bool := x.rank < infinityRank

/-- Together with `exponent`: a finite magnitude is `significand * 2 ^ exponent`. -/
def significand (x : Magnitude) : Nat :=
  if x.rank < Nat.pow 2 52 then x.rank else x.rank % Nat.pow 2 52 + Nat.pow 2 52

def exponent (x : Magnitude) : Int :=
  if x.rank < Nat.pow 2 52 then -1074 else (x.rank / Nat.pow 2 52 : Nat) - 1075

/-- A finite magnitude as a quotient of two natural numbers. -/
def quotient (x : Magnitude) : Nat × Nat :=
  if 0 ≤ x.exponent then (x.significand * Nat.pow 2 x.exponent.toNat, 1)
  else (x.significand, Nat.pow 2 (-x.exponent).toNat)

/-- The quotient rounded to a whole number, an exact half going to the even neighbour. -/
def roundHalfEven (num den : Nat) : Nat :=
  let low := num / den
  let twice := 2 * (num % den)
  if twice < den then low
  else if den < twice then low + 1
  else low + low % 2

/-- The exponent `e` with `2 ^ e ≤ num / den < 2 ^ (e + 1)`, for a positive quotient. -/
def binaryOrder (num den : Nat) : Int :=
  let e : Int := (num.log2 : Int) - (den.log2 : Int)
  if den * Nat.pow 2 e.toNat ≤ num * Nat.pow 2 (-e).toNat then e else e - 1

/-- The magnitude nearest to `num / den`. The significand of a normal value has 53 binary
digits; below the least normal value the digits that are left are those above `2 ^ -1074`. -/
def nearest (num den : Nat) : Magnitude :=
  if num = 0 then zero else
  let e := max (binaryOrder num den - 52) (-1074)
  let significand :=
    roundHalfEven (num * Nat.pow 2 (-e).toNat) (den * Nat.pow 2 e.toNat)
  ofRank ((e + 1074).toNat * Nat.pow 2 52 + significand)

/-- How many decimal digits a positive number has. -/
def digitCount (n : Nat) : Nat := (Nat.toDigits 10 n).length

/-- The magnitude nearest to `digits * 10 ^ exponent`. All values from `10 ^ 309` on are past the
largest finite one, and all below `10 ^ -324` are nearer to zero than to the least positive one,
so the power is only taken in between. -/
def ofDecimal (digits : Nat) (exponent : Int) : Magnitude :=
  let order : Int := digitCount digits + exponent
  if digits = 0 then zero
  else if 310 ≤ order then infinity
  else if order < -324 then zero
  else nearest (digits * Nat.pow 10 exponent.toNat) (Nat.pow 10 (-exponent).toNat)

/-- Whether a finite magnitude is a whole number. -/
def isWhole (x : Magnitude) : Bool :=
  x.isFinite && x.quotient.1 % x.quotient.2 == 0

/-- The whole part of a finite magnitude. -/
def whole (x : Magnitude) : Nat := x.quotient.1 / x.quotient.2

end Magnitude

/-- A binary64 number: a magnitude with a sign, or not a number. -/
inductive Binary64 where
  | nan
  | signed (negative : Bool) (magnitude : Magnitude)
deriving DecidableEq, Repr

namespace Binary64

def zero : Binary64 := .signed false .zero

def isFinite : Binary64 → Bool
  | nan => false
  | signed _ m => m.isFinite

/-- Equality as numbers: both zeros are one number, and what is not a number equals nothing. -/
def numEq : Binary64 → Binary64 → Bool
  | signed s m, signed t n => decide (m = n ∧ (s = t ∨ m = .zero))
  | _, _ => false

theorem numEq_self {x : Binary64} (h : x ≠ nan) : x.numEq x = true := by
  cases x with
  | nan => exact absurd rfl h
  | signed s m => simp [numEq]

end Binary64

end OperatorGrammar
