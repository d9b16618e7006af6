import Mathlib.Algebra.Order.Field.Power
import Mathlib.Data.Int.Log
import Mathlib.Data.Rat.Floor
import Mathlib.Tactic.FieldSimp
import Mathlib.Tactic.Ring
import OperatorGrammar.Number.Binary64

/-!
Rounding to binary64. The magnitude nearest to a quotient depends on the value of the quotient
only, and a quotient that is a magnitude is nearest to itself. Likewise a zero at the end of a
decimal's digits may move into its exponent. Main statements: `nearest_congr`, `nearest_quotient`
and `ofDecimal_mul_pow`.
-/

namespace OperatorGrammar.Magnitude

variable {num den num' den' : Nat}

/-! ## Rounding to a whole number -/

theorem roundHalfEven_mul_left {k : Nat} (hk : 0 < k) (num den : Nat) :
    roundHalfEven (k * num) (k * den) = roundHalfEven num den := by
  simp only [roundHalfEven, Nat.mul_div_mul_left _ _ hk, Nat.mul_mod_mul_left,
    Nat.mul_left_comm 2 k, Nat.mul_lt_mul_left hk]

theorem roundHalfEven_congr (hden : 0 < den) (hden' : 0 < den')
    (h : num * den' = num' * den) : roundHalfEven num den = roundHalfEven num' den' := by
  rw [← roundHalfEven_mul_left hden' num den, ← roundHalfEven_mul_left hden num' den',
    Nat.mul_comm den' num, h, Nat.mul_comm num' den, Nat.mul_comm den' den]

theorem roundHalfEven_mul_self (hden : 0 < den) (n : Nat) : roundHalfEven (n * den) den = n := by
  simp [roundHalfEven, Nat.mul_div_cancel n hden, hden]

/-- What rounding gives is one of the two whole numbers around the quotient. -/
theorem roundHalfEven_eq_or (num den : Nat) :
    roundHalfEven num den = num / den ∨ roundHalfEven num den = num / den + 1 := by
  simp only [roundHalfEven]
  have := Nat.mod_two_eq_zero_or_one (num / den)
  split
  · exact .inl rfl
  · split
    · exact .inr rfl
    · omega

/-! ## The order of a quotient -/

/-- A power with an integer exponent is a quotient of powers. -/
theorem pow_toNat_div (e : Int) : (2 : ℚ) ^ e.toNat / 2 ^ (-e).toNat = 2 ^ e := by
  rw [← zpow_natCast, ← zpow_natCast, ← zpow_sub₀ two_ne_zero]
  congr 1
  omega

/-- A quotient is compared with a power without leaving the natural numbers. -/
theorem mul_pow_le_iff (hden : 0 < den) (e : Int) :
    den * Nat.pow 2 e.toNat ≤ num * Nat.pow 2 (-e).toNat ↔ (2 : ℚ) ^ e ≤ num / den := by
  have hden₀ : (0 : ℚ) < den := by exact_mod_cast hden
  rw [← pow_toNat_div, div_le_div_iff₀ (by positivity) hden₀, mul_comm _ (den : ℚ)]
  exact_mod_cast Iff.rfl

/-- The binary order of a quotient is the whole part of its logarithm. -/
theorem binaryOrder_eq_log (hnum : num ≠ 0) (hden : 0 < den) :
    binaryOrder num den = Int.log 2 ((num : ℚ) / den) := by
  have hnum₀ : (0 : ℚ) < num := by exact_mod_cast Nat.pos_of_ne_zero hnum
  have hden₀ : (0 : ℚ) < den := by exact_mod_cast hden
  have hq : (0 : ℚ) < (num : ℚ) / den := div_pos hnum₀ hden₀
  have hle {x : Int} : (2 : ℚ) ^ x ≤ (num : ℚ) / den ↔ x ≤ Int.log 2 ((num : ℚ) / den) := by
    exact_mod_cast Int.zpow_le_iff_le_log (b := 2) Nat.one_lt_two hq
  have hlt {x : Int} : (num : ℚ) / den < (2 : ℚ) ^ x ↔ Int.log 2 ((num : ℚ) / den) < x := by
    exact_mod_cast Int.lt_zpow_iff_log_lt (b := 2) Nat.one_lt_two hq
  -- the lengths of the two numbers leave two candidates
  have bounds {n : Nat} (hn : n ≠ 0) :
      (2 : ℚ) ^ (n.log2 : Int) ≤ n ∧ (n : ℚ) < 2 ^ ((n.log2 : Int) + 1) := by
    refine ⟨?_, ?_⟩
    · exact_mod_cast Nat.log2_self_le hn
    · exact_mod_cast Nat.lt_log2_self
  obtain ⟨hn, hn'⟩ := bounds hnum
  obtain ⟨hd, hd'⟩ := bounds hden.ne'
  have hlow : (num.log2 : Int) - den.log2 - 1 ≤ Int.log 2 ((num : ℚ) / den) := by
    rw [← hle, sub_sub, zpow_sub₀ two_ne_zero]
    exact div_le_div₀ hnum₀.le hn hden₀ hd'.le
  have hhigh : Int.log 2 ((num : ℚ) / den) < (num.log2 : Int) - den.log2 + 1 := by
    rw [← hlt, sub_add_eq_add_sub, zpow_sub₀ two_ne_zero]
    exact div_lt_div₀ hn' hd (by positivity) (by positivity)
  unfold binaryOrder
  dsimp only
  split
  · have := hle.1 ((mul_pow_le_iff hden _).1 ‹_›)
    omega
  · have := mt hle.2 (mt (mul_pow_le_iff hden _).2 ‹_›)
    omega

/-! ## The nearest magnitude -/

/-- The nearest magnitude depends on the value of a quotient only. -/
theorem nearest_congr (hden : 0 < den) (hden' : 0 < den') (h : num * den' = num' * den) :
    nearest num den = nearest num' den' := by
  have hzero : num = 0 ↔ num' = 0 := by
    have := congrArg (· = 0) h
    simpa [hden.ne', hden'.ne'] using this
  by_cases hnum : num = 0
  · rw [nearest, nearest, if_pos hnum, if_pos (hzero.1 hnum)]
  · have hq : (num : ℚ) / den = num' / den' := by
      rw [div_eq_div_iff (by exact_mod_cast hden.ne') (by exact_mod_cast hden'.ne')]
      exact_mod_cast h
    have horder : binaryOrder num den = binaryOrder num' den' := by
      rw [binaryOrder_eq_log hnum hden, binaryOrder_eq_log (mt hzero.2 hnum) hden', hq]
    have hround (a b : Nat) : roundHalfEven (num * Nat.pow 2 a) (den * Nat.pow 2 b) =
        roundHalfEven (num' * Nat.pow 2 a) (den' * Nat.pow 2 b) := by
      refine roundHalfEven_congr (Nat.mul_pos hden (Nat.pow_pos Nat.two_pos))
        (Nat.mul_pos hden' (Nat.pow_pos Nat.two_pos)) ?_
      rw [Nat.mul_mul_mul_comm, h, Nat.mul_mul_mul_comm]
    simp only [nearest, if_neg hnum, if_neg (mt hzero.2 hnum), horder, hround]

variable {x : Magnitude}

theorem quotient_den_pos (x : Magnitude) : 0 < x.quotient.2 := by
  unfold quotient
  split
  · exact Nat.one_pos
  · exact Nat.pow_pos Nat.two_pos

/-- The significand counts the power of two that the exponent gives. -/
theorem quotient_num_mul (x : Magnitude) :
    x.quotient.1 * Nat.pow 2 (-x.exponent).toNat =
      x.significand * (x.quotient.2 * Nat.pow 2 x.exponent.toNat) := by
  unfold quotient
  split
  · rw [show (-x.exponent).toNat = 0 by omega]
    simp
  · rw [show x.exponent.toNat = 0 by omega]
    simp

theorem quotient_value (x : Magnitude) :
    (x.quotient.1 : ℚ) / x.quotient.2 = x.significand * 2 ^ x.exponent := by
  have hden : (x.quotient.2 : ℚ) ≠ 0 := by exact_mod_cast x.quotient_den_pos.ne'
  have h : (x.quotient.1 : ℚ) * 2 ^ (-x.exponent).toNat =
      x.significand * (x.quotient.2 * 2 ^ x.exponent.toNat) := by
    exact_mod_cast x.quotient_num_mul
  rw [← pow_toNat_div, ← mul_div_assoc, div_eq_div_iff hden (by positivity), h]
  ring

theorem eq_of_rank_eq {x y : Magnitude} (h : x.rank = y.rank) : x = y := by
  cases x
  cases y
  cases h
  rfl

theorem rank_eq (x : Magnitude) :
    x.rank = (x.exponent + 1074).toNat * Nat.pow 2 52 + x.significand := by
  unfold exponent significand
  split
  · simp
  · rename_i h
    have hdiv := Nat.div_add_mod x.rank (Nat.pow 2 52)
    have hpos := Nat.div_pos (Nat.not_lt.1 h) (Nat.pow_pos Nat.two_pos)
    generalize x.rank / Nat.pow 2 52 = q at hdiv hpos ⊢
    obtain ⟨p, rfl⟩ : ∃ p, q = p + 1 := ⟨q - 1, by omega⟩
    rw [show (((p + 1 : Nat) : Int) - 1075 + 1074).toNat = p by omega]
    rw [Nat.mul_add, Nat.mul_comm _ p] at hdiv
    omega

theorem significand_lt (x : Magnitude) : x.significand < Nat.pow 2 53 := by
  have hmod := Nat.mod_lt x.rank (Nat.pow_pos Nat.two_pos : 0 < Nat.pow 2 52)
  unfold significand
  split <;> simp only [Nat.pow_eq] at * <;> omega

/-- The significand of a normal magnitude has all its digits. -/
theorem exponent_eq_or (x : Magnitude) :
    x.exponent = -1074 ∨ -1074 ≤ x.exponent ∧ Nat.pow 2 52 ≤ x.significand := by
  unfold exponent significand
  split
  · exact .inl rfl
  · rename_i h
    have hpos := Nat.div_pos (Nat.not_lt.1 h) (Nat.pow_pos Nat.two_pos)
    exact .inr ⟨by omega, Nat.le_add_left _ _⟩

theorem significand_eq_zero_iff (x : Magnitude) : x.significand = 0 ↔ x.quotient.1 = 0 := by
  have h := congrArg (· = 0) x.quotient_num_mul
  simpa [x.quotient_den_pos.ne'] using h.symm

/-- The exponent of a positive magnitude is found again from its value. -/
theorem max_binaryOrder (h : x.quotient.1 ≠ 0) :
    max (binaryOrder x.quotient.1 x.quotient.2 - 52) (-1074) = x.exponent := by
  have hpos := Nat.pos_of_ne_zero (mt x.significand_eq_zero_iff.1 h)
  have hpos₀ : (0 : ℚ) < x.significand := by exact_mod_cast hpos
  have hq : (0 : ℚ) < x.significand * 2 ^ x.exponent := by positivity
  rw [binaryOrder_eq_log h x.quotient_den_pos, quotient_value]
  have hlt : Int.log 2 ((x.significand : ℚ) * 2 ^ x.exponent) < 53 + x.exponent := by
    rw [← Int.lt_zpow_iff_log_lt Nat.one_lt_two hq, Nat.cast_two, zpow_add₀ two_ne_zero]
    refine mul_lt_mul_of_pos_right ?_ (by positivity)
    exact_mod_cast x.significand_lt
  obtain he | ⟨he, hnormal⟩ := x.exponent_eq_or
  · omega
  · have hle : 52 + x.exponent ≤ Int.log 2 ((x.significand : ℚ) * 2 ^ x.exponent) := by
      rw [← Int.zpow_le_iff_le_log Nat.one_lt_two hq, Nat.cast_two, zpow_add₀ two_ne_zero]
      refine mul_le_mul_of_nonneg_right ?_ (by positivity)
      exact_mod_cast hnormal
    omega

/-- A finite magnitude is nearest to itself. -/
theorem nearest_quotient (h : x.isFinite = true) : nearest x.quotient.1 x.quotient.2 = x := by
  have hrank : x.rank < infinityRank := by simpa [isFinite] using h
  have hround : roundHalfEven (x.quotient.1 * Nat.pow 2 (-x.exponent).toNat)
      (x.quotient.2 * Nat.pow 2 x.exponent.toNat) = x.significand := by
    rw [quotient_num_mul]
    exact roundHalfEven_mul_self
      (Nat.mul_pos x.quotient_den_pos (Nat.pow_pos Nat.two_pos)) _
  unfold nearest
  dsimp only
  by_cases h0 : x.quotient.1 = 0
  · -- only zero has no significand
    have hs := x.significand_eq_zero_iff.2 h0
    have he : x.exponent = -1074 := by
      obtain he | ⟨-, hn⟩ := x.exponent_eq_or
      · exact he
      · rw [hs] at hn
        exact absurd hn (by decide)
    have hr : x.rank = 0 := by
      rw [rank_eq, hs, he]
      rfl
    rw [if_pos h0]
    exact eq_of_rank_eq hr.symm
  · rw [if_neg h0, max_binaryOrder h0, hround, ← rank_eq]
    exact eq_of_rank_eq (Nat.min_eq_left hrank.le)

/-! ## Decimals -/

theorem digitCount_pos (n : Nat) : 0 < digitCount n := Nat.length_toDigits_pos

/-- The digits of a number below a power of ten are no more than its exponent says. -/
theorem digitCount_le_iff {n k : Nat} (hk : 0 < k) : digitCount n ≤ k ↔ n < 10 ^ k :=
  Nat.length_toDigits_le_iff (by decide) hk

theorem lt_digitCount {n k : Nat} (h : 10 ^ k ≤ n) : k < digitCount n := by
  by_cases hk : k = 0
  · exact hk ▸ digitCount_pos n
  · exact Nat.lt_of_not_le (mt (digitCount_le_iff (Nat.pos_of_ne_zero hk)).1 (Nat.not_lt.2 h))

theorem digitCount_mul_pow {n : Nat} (hn : 0 < n) (k : Nat) :
    digitCount (n * 10 ^ k) = digitCount n + k := by
  induction k with
  | zero => simp
  | succ k ih =>
    have hpos : 0 < n * 10 ^ k := Nat.mul_pos hn (Nat.pow_pos (by decide))
    have h := Nat.toDigits_append_toDigits (b := 10) (n := n * 10 ^ k) (d := 0) (by decide) hpos
      (by decide)
    rw [digitCount, Nat.pow_succ, ← Nat.mul_assoc, Nat.mul_comm _ 10, ← Nat.add_zero (10 * _), ← h,
      List.length_append, ← digitCount, ih]
    rfl

/-- Zeros at the end of the digits may move into the exponent. -/
theorem ofDecimal_mul_pow (n k : Nat) (e : Int) :
    ofDecimal (n * 10 ^ k) e = ofDecimal n (e + k) := by
  by_cases hn : n = 0
  · simp [ofDecimal, hn]
  · have hne : n * 10 ^ k ≠ 0 := by positivity
    have horder : (digitCount (n * 10 ^ k) : Int) + e = digitCount n + (e + k) := by
      rw [digitCount_mul_pow (Nat.pos_of_ne_zero hn)]
      omega
    have hnear : nearest (n * 10 ^ k * Nat.pow 10 e.toNat) (Nat.pow 10 (-e).toNat) =
        nearest (n * Nat.pow 10 (e + k).toNat) (Nat.pow 10 (-(e + k)).toNat) := by
      refine nearest_congr (Nat.pow_pos (by decide)) (Nat.pow_pos (by decide)) ?_
      simp only [Nat.pow_eq, Nat.mul_assoc, ← Nat.pow_add]
      congr 2
      omega
    simp only [ofDecimal, if_neg hn, if_neg hne, horder, hnear]

end OperatorGrammar.Magnitude
