import OperatorGrammar.Number.Decimal
import OperatorGrammar.Proofs.Number.Rounding

/-!
The digits of a magnitude. The shortest digits of a finite magnitude count as that magnitude, and
so do the digits of a whole one. A grid of digits only has hits that count as the magnitude, and
where no grid has a hit, all digits are in range of what decimals can count. Main statements:
`shortest_magnitude` and `ofDecimal_whole`.
-/

namespace OperatorGrammar.Magnitude

variable {x : Magnitude}

/-! ## The range of a finite magnitude -/

/-- Digits in range count as the quotient that they write. -/
theorem ofDecimal_eq_nearest {n : Nat} {e : Int} (hlow : -324 ≤ (digitCount n : Int) + e)
    (hhigh : (digitCount n : Int) + e < 310) :
    ofDecimal n e = nearest (n * Nat.pow 10 e.toNat) (Nat.pow 10 (-e).toNat) := by
  by_cases hn : n = 0
  · simp [ofDecimal, nearest, hn]
  · simp only [ofDecimal, if_neg hn, if_neg (Int.not_le.2 hhigh), if_neg (Int.not_lt.2 hlow)]

theorem exponent_le (h : x.isFinite = true) : x.exponent ≤ 971 := by
  have hrank : x.rank < 2047 * Nat.pow 2 52 := of_decide_eq_true h
  have hdiv : x.rank / Nat.pow 2 52 < 2047 :=
    (Nat.div_lt_iff_lt_mul (Nat.pow_pos Nat.two_pos)).2 hrank
  unfold exponent
  split
  · decide
  · omega

theorem le_exponent (x : Magnitude) : -1074 ≤ x.exponent := by
  obtain h | ⟨h, -⟩ := x.exponent_eq_or
  · exact h.ge
  · exact h

/-- Before the point of a finite magnitude stand 309 digits at most. -/
theorem whole_lt (h : x.isFinite = true) : x.whole < 10 ^ 309 := by
  have hs : x.significand < 2 ^ 53 := x.significand_lt
  have hE := exponent_le h
  unfold whole quotient
  split
  · have hp : 2 ^ x.exponent.toNat ≤ 2 ^ 971 := pow_le_pow_right₀ (by decide) (by omega)
    calc
      _ = x.significand * 2 ^ x.exponent.toNat := Nat.div_one _
      _ ≤ 2 ^ 53 * 2 ^ 971 := Nat.mul_le_mul hs.le hp
      _ < 10 ^ 309 := by decide +kernel
  · calc
      _ ≤ x.significand := Nat.div_le_self _ _
      _ < 2 ^ 53 := hs
      _ < 10 ^ 309 := by decide +kernel

/-! ## All digits -/

/-- No power of two below the least magnitude comes into question, so its digits are in range. -/
theorem pow_ten_le {k : Nat} (hk : k ≤ 1074) : 10 ^ (k - 325) ≤ 5 ^ k := by
  by_cases hs : k ≤ 325
  · rw [Nat.sub_eq_zero_of_le hs]
    exact Nat.one_le_pow _ _ (by decide)
  · have htwo : 2 ^ k ≤ 10 ^ 325 := (pow_le_pow_right₀ (by decide) hk).trans (by decide +kernel)
    refine Nat.le_of_mul_le_mul_right ?_ (pow_pos (a := 10) (by decide) 325)
    calc
      10 ^ (k - 325) * 10 ^ 325 = 5 ^ k * 2 ^ k := by
        rw [← Nat.pow_add, Nat.sub_add_cancel (by omega), ← Nat.mul_pow]
      _ ≤ 5 ^ k * 10 ^ 325 := Nat.mul_le_mul_left _ htwo

/-- A power of two below the point turns into a power of ten. -/
theorem ofDecimal_mul_pow_five {n k : Nat} (hn : n < 10 ^ 309) (hk : k ≤ 1074) :
    ofDecimal (n * 5 ^ k) (-(k : Int)) = nearest n (2 ^ k) := by
  by_cases h0 : n = 0
  · simp [ofDecimal, nearest, h0]
  · have hlow : k - 325 < digitCount (n * 5 ^ k) :=
      lt_digitCount ((pow_ten_le hk).trans (Nat.le_mul_of_pos_left _ (Nat.pos_of_ne_zero h0)))
    have hhigh : digitCount (n * 5 ^ k) ≤ k + 309 := by
      rw [digitCount_le_iff (by omega)]
      calc
        n * 5 ^ k < 10 ^ 309 * 10 ^ k :=
          Nat.mul_lt_mul_of_lt_of_le hn (Nat.pow_le_pow_left (by decide) k)
            (Nat.pow_pos (by decide))
        _ = 10 ^ (k + 309) := by rw [← Nat.pow_add, Nat.add_comm]
    rw [ofDecimal_eq_nearest (by omega) (by omega), Int.neg_neg, Int.toNat_natCast,
      Int.toNat_of_nonpos (by omega)]
    refine nearest_congr (Nat.pow_pos (by decide)) (Nat.pow_pos Nat.two_pos) ?_
    simp only [Nat.pow_eq]
    rw [Nat.pow_zero, Nat.mul_one, Nat.mul_assoc, ← Nat.mul_pow]

/-- The digits of a whole magnitude count as it. -/
theorem ofDecimal_whole (h : x.isWhole = true) : ofDecimal x.whole 0 = x := by
  obtain ⟨hf, hmod⟩ : x.isFinite = true ∧ x.quotient.1 % x.quotient.2 = 0 := by
    simpa [isWhole] using h
  have hwhole : x.whole * x.quotient.2 = x.quotient.1 :=
    Nat.div_mul_cancel (Nat.dvd_of_mod_eq_zero hmod)
  calc
    ofDecimal x.whole 0 = nearest x.whole 1 := by
      simpa using ofDecimal_mul_pow_five (k := 0) (whole_lt hf) (Nat.zero_le _)
    _ = nearest x.quotient.1 x.quotient.2 := by
      refine nearest_congr Nat.one_pos x.quotient_den_pos ?_
      rw [hwhole, Nat.mul_one]
    _ = x := nearest_quotient hf

/-- All digits of a finite magnitude count as it. -/
theorem allDigits_magnitude (h : x.isFinite = true) : x.allDigits.magnitude = x := by
  unfold allDigits Decimal.magnitude
  split
  · -- without a power of two below the point, a magnitude is whole
    rename_i hE
    have hden : x.quotient.2 = 1 := by rw [quotient, if_pos hE]
    have hwhole : x.isWhole = true := by simp [isWhole, h, hden, Nat.mod_one]
    have hw : x.whole = x.quotient.1 := by rw [whole, hden, Nat.div_one]
    rw [← hw]
    exact ofDecimal_whole hwhole
  · rename_i hE
    have hle := x.le_exponent
    obtain ⟨k, hk⟩ : ∃ k : Nat, x.exponent = -k := ⟨(-x.exponent).toNat, by omega⟩
    have hquotient : x.quotient = (x.significand, 2 ^ k) := by
      rw [quotient, if_neg hE, hk, Int.neg_neg]
      rfl
    have hnear := nearest_quotient h
    rw [hquotient] at hnear ⊢
    rw [hk, Int.neg_neg]
    refine (ofDecimal_mul_pow_five ?_ (by omega)).trans hnear
    exact x.significand_lt.trans (by decide +kernel)

/-! ## The shortest digits -/

/-- What a grid has to offer counts as the magnitude. -/
theorem onGrid?_magnitude {e : Int} {d : Decimal} (h : x.onGrid? e = some d) :
    d.magnitude = x := by
  unfold onGrid? at h
  dsimp only at h
  split at h
  · rename_i hbelow
    split at h
    · rename_i habove
      obtain rfl := Option.some.inj h
      obtain hr | hr := roundHalfEven_eq_or (x.quotient.1 * Nat.pow 10 (-e).toNat)
        (x.quotient.2 * Nat.pow 10 e.toNat)
      · rw [hr]
        exact hbelow
      · rw [hr]
        exact habove
    · obtain rfl := Option.some.inj h
      exact hbelow
  · split at h
    · rename_i habove
      obtain rfl := Option.some.inj h
      exact habove
    · cases h

/-- The shortest digits of a finite magnitude count as it. -/
theorem shortest_magnitude (h : x.isFinite = true) : x.shortest.magnitude = x := by
  unfold shortest
  dsimp only
  generalize hfound : List.findSome? _ _ = found
  cases found with
  | none => exact allDigits_magnitude h
  | some d =>
    obtain ⟨n, -, hn⟩ := List.exists_of_findSome?_eq_some hfound
    exact onGrid?_magnitude hn

end OperatorGrammar.Magnitude
