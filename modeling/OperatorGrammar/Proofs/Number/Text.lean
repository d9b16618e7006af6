import Mathlib.Data.List.TakeWhile
import OperatorGrammar.Proofs.Number.Shortest

/-!
The text of a number reads back as the number. A decimal is read back from every layout of its
digits, with a point in them or with an exponent behind them. Since the shortest digits count as
the magnitude that they are taken from, no two magnitudes share a text. Main statements:
`unsigned?_layOut`, `unsigned?_compactText` and `compactText_inj`.
-/

namespace OperatorGrammar

namespace Text

/-! ## Up to a character -/

section

variable {cs : List Char} {c : Char}

theorem bne_of_mem (h : c ∉ cs) : ∀ d ∈ cs, (d != c) = true := by
  intro d hd
  rw [bne_iff_ne]
  rintro rfl
  exact h hd

theorem takeWhile_bne_of_not_mem (h : c ∉ cs) : cs.takeWhile (· != c) = cs :=
  List.takeWhile_eq_self_iff.2 (bne_of_mem h)

theorem dropWhile_bne_of_not_mem (h : c ∉ cs) : cs.dropWhile (· != c) = [] :=
  List.dropWhile_eq_nil_iff.2 (bne_of_mem h)

theorem takeWhile_bne_append (h : c ∉ cs) (rest : List Char) :
    (cs ++ c :: rest).takeWhile (· != c) = cs := by
  rw [List.takeWhile_append_of_pos (bne_of_mem h)]
  simp

theorem dropWhile_bne_append (h : c ∉ cs) (rest : List Char) :
    (cs ++ c :: rest).dropWhile (· != c) = c :: rest := by
  rw [List.dropWhile_append_of_pos (bne_of_mem h)]
  simp

end

/-! ## Digits -/

theorem digitValue?_of_isDigit {c : Char} (h : c.isDigit = true) :
    digitValue? c = some (c.toNat - 48) := by
  obtain ⟨h0, h9⟩ := toNat_of_isDigit h
  rw [digitValue?, zeroDigits, List.find?_cons_of_pos]
  · rfl
  · simp only [Bool.and_eq_true, decide_eq_true_eq]
    omega

/-- Digits are no capital letters. -/
theorem toLower_of_isDigit {c : Char} (h : c.isDigit = true) : c.toLower = c := by
  obtain ⟨-, h9⟩ := toNat_of_isDigit h
  refine dif_neg ?_
  rintro ⟨hA, -⟩
  have hA : 65 ≤ c.toNat := UInt32.le_iff_toNat_le.1 hA
  omega

/-- Digits of the usual script. -/
def AreDigits (ds : List Char) : Prop := ∀ d ∈ ds, d.isDigit = true

variable {ds es : List Char}

theorem AreDigits.append (hd : AreDigits ds) (he : AreDigits es) : AreDigits (ds ++ es) := by
  intro c hc
  obtain h | h := List.mem_append.1 hc
  · exact hd c h
  · exact he c h

theorem areDigits_replicate (n : Nat) : AreDigits (List.replicate n '0') := by
  intro c hc
  rw [List.eq_of_mem_replicate hc]
  decide

theorem areDigits_toDigits (n : Nat) : AreDigits (Nat.toDigits 10 n) := fun _ hc =>
  Nat.isDigit_of_mem_toDigits (by decide) (by decide) hc

theorem allDigits?_of_forall (h : ∀ d ∈ ds, isDecimalDigit d = true) :
    allDigits? ds = some (digitsValue ds) :=
  if_pos (List.all_eq_true.2 h)

theorem AreDigits.allDigits? (h : AreDigits ds) : allDigits? ds = some (digitsValue ds) :=
  allDigits?_of_forall fun c hc => isDecimalDigit_of_isDigit (h c hc)

theorem digitsValue_append (ds es : List Char) :
    digitsValue (ds ++ es) = digitsValue ds * 10 ^ es.length + digitsValue es := by
  have concat (cs : List Char) (c : Char) :
      digitsValue (cs ++ [c]) = 10 * digitsValue cs + (digitValue? c).getD 0 := by
    simp [digitsValue]
  induction es generalizing ds with
  | nil => simp [digitsValue]
  | cons c es ih =>
    rw [List.append_cons, ih, concat, ← List.singleton_append, ih [c], ← List.nil_append [c],
      concat, List.length_append]
    simp only [digitsValue, List.foldl_nil, List.nil_append, List.length_singleton]
    ring

theorem digitsValue_replicate (n : Nat) : digitsValue (List.replicate n '0') = 0 := by
  induction n with
  | zero => rfl
  | succ n ih =>
    rw [List.replicate_succ, ← List.singleton_append, digitsValue_append, ih, Nat.add_zero]
    exact Nat.zero_mul _

/-- The digits of a number write the number. -/
theorem digitsValue_toDigits (n : Nat) : digitsValue (Nat.toDigits 10 n) = n := by
  have h : ∀ (ds : List Char) (a : Nat), AreDigits ds →
      ds.foldl (fun n c => 10 * n + (digitValue? c).getD 0) a = Nat.ofDigitChars 10 ds a := by
    intro ds
    induction ds with
    | nil => exact fun _ _ => rfl
    | cons c ds ih =>
      intro a hd
      obtain ⟨hc, hd⟩ := List.forall_mem_cons.1 hd
      rw [List.foldl_cons, Nat.ofDigitChars_cons, digitValue?_of_isDigit hc, ih _ hd]
      rfl
  rw [digitsValue, h _ _ (areDigits_toDigits n), Nat.ofDigitChars_ten_toDigits]

end Text

open Text

/-! ## Significant digits -/

namespace Decimal

/-- The significant digits are all digits but for zeros at the end. -/
theorem significant_append (d : Decimal) :
    ∃ z, Nat.toDigits 10 d.digits = d.significant ++ List.replicate z '0' := by
  generalize hl : (Nat.toDigits 10 d.digits).reverse = l
  have hsplit := List.takeWhile_append_dropWhile (p := (· == '0')) (l := l)
  have hzeros : l.takeWhile (· == '0') = List.replicate (l.takeWhile (· == '0')).length '0' := by
    refine List.eq_replicate_iff.2 ⟨rfl, ?_⟩
    intro c hc
    simpa using List.mem_takeWhile_imp hc
  have hdigits : Nat.toDigits 10 d.digits = (l.dropWhile (· == '0')).reverse ++
      List.replicate (l.takeWhile (· == '0')).length '0' := by
    rw [← List.reverse_replicate, ← hzeros, ← List.reverse_append, hsplit, ← hl,
      List.reverse_reverse]
  unfold significant
  rw [hl]
  split
  · -- nothing but zeros is left of zero only
    rename_i hnil
    have hzero : d.digits = 0 := by
      rw [← digitsValue_toDigits d.digits, hdigits, hnil]
      exact digitsValue_replicate _
    rw [hzero]
    exact ⟨0, rfl⟩
  · exact ⟨_, hdigits⟩

theorem significant_ne_nil (d : Decimal) : d.significant ≠ [] := by
  unfold significant
  split
  · exact List.cons_ne_nil _ _
  · rename_i h
    exact mt List.reverse_eq_nil_iff.1 h

theorem areDigits_significant (d : Decimal) : AreDigits d.significant := by
  obtain ⟨z, hz⟩ := d.significant_append
  intro c hc
  refine areDigits_toDigits d.digits c ?_
  rw [hz]
  exact List.mem_append_left _ hc

/-- The significant digits, with the point where it stands, count as the decimal. -/
theorem ofDecimal_significant (d : Decimal) :
    Magnitude.ofDecimal (digitsValue d.significant) (d.point - d.significant.length) =
      d.magnitude := by
  obtain ⟨z, hz⟩ := d.significant_append
  have hvalue : digitsValue d.significant * 10 ^ z = d.digits := by
    rw [← digitsValue_toDigits d.digits, hz, digitsValue_append, digitsValue_replicate,
      List.length_replicate, Nat.add_zero]
  have hpoint : d.point - d.significant.length = d.exponent + z := by
    rw [point, Magnitude.digitCount, hz, List.length_append, List.length_replicate]
    omega
  rw [hpoint, ← Magnitude.ofDecimal_mul_pow, hvalue, magnitude]

end Decimal

/-! ## Reading numerals -/

namespace Binary64

variable {cs ds es : List Char} {d : Decimal}

/-- A digit, and then digits and points. -/
structure IsMantissa (cs : List Char) : Prop where
  first : ∃ c rest, cs = c :: rest ∧ c.isDigit = true
  digits : ∀ c ∈ cs, c.isDigit = true ∨ c = '.'

theorem exists_digit (hd : AreDigits ds) (hne : ds ≠ []) :
    ∃ c rest, ds = c :: rest ∧ c.isDigit = true := by
  obtain ⟨c, rest, rfl⟩ := List.exists_cons_of_ne_nil hne
  exact ⟨c, rest, rfl, hd c List.mem_cons_self⟩

theorem IsMantissa.of_digits (hd : AreDigits ds) (hne : ds ≠ []) : IsMantissa ds :=
  ⟨exists_digit hd hne, fun c hc => .inl (hd c hc)⟩

theorem IsMantissa.point (hd : AreDigits ds) (he : AreDigits es) (hne : ds ≠ []) :
    IsMantissa (ds ++ '.' :: es) := by
  refine ⟨?_, ?_⟩
  · obtain ⟨c, rest, rfl, hc⟩ := exists_digit hd hne
    exact ⟨c, _, rfl, hc⟩
  · intro c hc
    obtain h | h := List.mem_append.1 hc
    · exact .inl (hd c h)
    · obtain rfl | h := List.mem_cons.1 h
      · exact .inr rfl
      · exact .inl (he c h)

theorem point_not_mem_digits (hd : AreDigits ds) : '.' ∉ ds := fun h =>
  absurd (hd _ h) (by decide)

theorem mantissa?_digits (hd : AreDigits ds) (hne : ds ≠ []) :
    mantissa? ds = some ⟨digitsValue ds, 0⟩ := by
  have hp := point_not_mem_digits hd
  simp [mantissa?, takeWhile_bne_of_not_mem hp, dropWhile_bne_of_not_mem hp, hd.allDigits?, hne]

theorem mantissa?_point (hd : AreDigits ds) (he : AreDigits es) (hne : ds ≠ []) :
    mantissa? (ds ++ '.' :: es) = some ⟨digitsValue (ds ++ es), -(es.length : Int)⟩ := by
  have hp := point_not_mem_digits hd
  simp [mantissa?, takeWhile_bne_append hp, dropWhile_bne_append hp, (hd.append he).allDigits?,
    hne]

/-- Neither the letters of infinity nor an exponent stand among digits and points. -/
theorem not_mem_of_digits (h : ∀ c ∈ cs, c.isDigit = true ∨ c = '.') {c : Char}
    (hc : c.isDigit = false) (hp : c ≠ '.') : c ∉ cs := by
  intro hmem
  obtain hd | rfl := h c hmem
  · rw [hc] at hd
    cases hd
  · exact hp rfl

/-- No capital letters stand in a numeral. -/
theorem map_toLower (h : ∀ c ∈ cs, c.isDigit = true ∨ c = '.') : cs.map Char.toLower = cs := by
  refine (List.map_congr_left ?_).trans (List.map_id cs)
  intro c hc
  obtain hd | rfl := h c hc
  · exact toLower_of_isDigit hd
  · rfl

/-- A text in small letters that is not infinity is read by its mantissa and its exponent. -/
theorem unsigned?_of_not_mem (hlow : cs.map Char.toLower = cs) (hn : 'n' ∉ cs) :
    unsigned? cs =
      match mantissa? (cs.takeWhile (· != 'e')) with
      | none => none
      | some d =>
        if cs.contains 'e' then
          (exponent? ((cs.dropWhile (· != 'e')).drop 1)).map fun e =>
            Decimal.magnitude ⟨d.digits, d.exponent + e⟩
        else some d.magnitude := by
  unfold unsigned?
  rw [hlow]
  split
  · exact absurd (by simp) hn
  · exact absurd (by simp) hn
  · rfl

theorem unsigned?_mantissa (h : ∀ c ∈ cs, c.isDigit = true ∨ c = '.')
    (hd : mantissa? cs = some d) : unsigned? cs = some d.magnitude := by
  have he : 'e' ∉ cs := not_mem_of_digits h (by decide) (by decide)
  have hn : 'n' ∉ cs := not_mem_of_digits h (by decide) (by decide)
  rw [unsigned?_of_not_mem (map_toLower h) hn, takeWhile_bne_of_not_mem he, hd]
  simp [he]

theorem unsigned?_power {sign : Char} {e : Int} (h : IsMantissa cs) (hd : mantissa? cs = some d)
    (hs : sign = '-' ∨ sign = '+') (hds : AreDigits ds) (he : exponent? (sign :: ds) = some e) :
    unsigned? (cs ++ 'e' :: sign :: ds) = some (Decimal.magnitude ⟨d.digits, d.exponent + e⟩) := by
  have hne : 'e' ∉ cs := not_mem_of_digits h.digits (by decide) (by decide)
  have hlow : (cs ++ 'e' :: sign :: ds).map Char.toLower = cs ++ 'e' :: sign :: ds := by
    have hsign : sign.toLower = sign := by
      obtain rfl | rfl := hs <;> rfl
    rw [List.map_append, map_toLower h.digits, List.map_cons, List.map_cons, hsign,
      map_toLower fun c hc => .inl (hds c hc)]
    rfl
  have hn : 'n' ∉ cs ++ 'e' :: sign :: ds := by
    have hdn : 'n' ∉ ds := fun hc => absurd (hds _ hc) (by decide)
    have hcn : 'n' ∉ cs := not_mem_of_digits h.digits (by decide) (by decide)
    obtain rfl | rfl := hs <;> simp [hdn, hcn]
  rw [unsigned?_of_not_mem hlow hn, takeWhile_bne_append hne, dropWhile_bne_append hne, hd]
  simp [he]

/-! ## Reading layouts -/

/-- The point stands between digits, which count as the digits did with the point in its place. -/
theorem exists_positional_eq (hd : AreDigits ds) (hne : ds ≠ []) (point : Int) :
    ∃ front back, DecimalLayout.positional ds point = front ++ '.' :: back ∧
      AreDigits front ∧ AreDigits back ∧ front ≠ [] ∧
      Magnitude.ofDecimal (digitsValue (front ++ back)) (-(back.length : Int)) =
        .ofDecimal (digitsValue ds) (point - ds.length) := by
  unfold DecimalLayout.positional
  split
  · -- zeros between the point and the digits
    have hzero : AreDigits ['0'] := areDigits_replicate 1
    have hes := (areDigits_replicate (-point).toNat).append hd
    refine ⟨['0'], _, rfl, hzero, hes, List.cons_ne_nil _ _, ?_⟩
    rw [digitsValue_append, digitsValue_append, digitsValue_replicate, List.length_append,
      List.length_replicate]
    congr 1
    · have : digitsValue ['0'] = 0 := digitsValue_replicate 1
      rw [this]
      ring
    · omega
  · split
    · rename_i hpos hlt
      have htake : AreDigits (ds.take point.toNat) := fun c hc => hd c (List.mem_of_mem_take hc)
      have hdrop : AreDigits (ds.drop point.toNat) := fun c hc => hd c (List.mem_of_mem_drop hc)
      have hne' : ds.take point.toNat ≠ [] := by
        rw [Ne, List.take_eq_nil_iff, not_or]
        exact ⟨by omega, hne⟩
      refine ⟨_, _, rfl, htake, hdrop, hne', ?_⟩
      rw [List.take_append_drop, List.length_drop]
      congr 1
      omega
    · -- zeros between the digits and the point
      have hzero : AreDigits ['0'] := areDigits_replicate 1
      have hds := hd.append (areDigits_replicate (point.toNat - ds.length))
      have hvalue : digitsValue (ds ++ List.replicate (point.toNat - ds.length) '0' ++ ['0']) =
          digitsValue ds * 10 ^ (point.toNat - ds.length + 1) := by
        rw [List.append_assoc, ← List.replicate_succ', digitsValue_append, digitsValue_replicate,
          List.length_replicate, Nat.add_zero]
      refine ⟨_, ['0'], rfl, hds, hzero, List.append_ne_nil_of_left_ne_nil hne _, ?_⟩
      rw [hvalue, Magnitude.ofDecimal_mul_pow]
      congr 1
      simp only [List.length_singleton]
      omega

/-- Digits are read back with their point, wherever it stands. -/
theorem unsigned?_positional (hd : AreDigits ds) (hne : ds ≠ []) (point : Int) :
    unsigned? (DecimalLayout.positional ds point) =
      some (.ofDecimal (digitsValue ds) (point - ds.length)) := by
  obtain ⟨front, back, hlayout, hf, hb, hfne, hvalue⟩ := exists_positional_eq hd hne point
  rw [hlayout, unsigned?_mantissa (IsMantissa.point hf hb hfne).digits (mantissa?_point hf hb hfne)]
  exact congrArg some hvalue

theorem exponent?_signed (e : Int) (zeros : Nat) :
    exponent? ((if e < 0 then '-' else '+') ::
      (List.replicate zeros '0' ++ Nat.toDigits 10 e.natAbs)) = some e := by
  have hdigits := (areDigits_replicate zeros).append (areDigits_toDigits e.natAbs)
  have hvalue : digitsValue (List.replicate zeros '0' ++ Nat.toDigits 10 e.natAbs) = e.natAbs := by
    rw [digitsValue_append, digitsValue_replicate, digitsValue_toDigits]
    ring
  have hne : List.replicate zeros '0' ++ Nat.toDigits 10 e.natAbs ≠ [] :=
    List.append_ne_nil_of_right_ne_nil _ Nat.toDigits_ne_nil
  generalize List.replicate zeros '0' ++ Nat.toDigits 10 e.natAbs = power at hdigits hvalue hne
  obtain ⟨c, cs, rfl⟩ := List.exists_cons_of_ne_nil hne
  by_cases he : e < 0
  · have habs : -(e.natAbs : Int) = e := by omega
    simp only [exponent?, splitSign, if_pos he, hdigits.allDigits?, hvalue, if_true]
    exact congrArg some habs
  · have habs : (e.natAbs : Int) = e := by omega
    simp only [exponent?, splitSign, if_neg he, hdigits.allDigits?, hvalue]
    exact congrArg some habs

/-- In front of the exponent stand the digits, with a point behind the first one. -/
theorem exists_scientific_eq (layout : DecimalLayout) (hd : AreDigits ds) (hne : ds ≠ [])
    (e : Int) :
    ∃ cs zeros, layout.scientific ds e = cs ++ 'e' :: (if e < 0 then '-' else '+') ::
        (List.replicate zeros '0' ++ Nat.toDigits 10 e.natAbs) ∧
      IsMantissa cs ∧ mantissa? cs = some ⟨digitsValue ds, 1 - ds.length⟩ := by
  obtain ⟨c, cs, rfl⟩ := List.exists_cons_of_ne_nil hne
  obtain ⟨hc, hcs⟩ := List.forall_mem_cons.1 hd
  cases cs with
  | nil => exact ⟨[c], _, rfl, .of_digits hd hne, mantissa?_digits hd hne⟩
  | cons c' cs =>
    have hfirst : AreDigits [c] := List.forall_mem_singleton.2 hc
    refine ⟨[c] ++ '.' :: c' :: cs, _, rfl, .point hfirst hcs (List.cons_ne_nil _ _), ?_⟩
    rw [mantissa?_point hfirst hcs (List.cons_ne_nil _ _)]
    simp

/-- Digits are read back with their exponent. -/
theorem unsigned?_scientific (layout : DecimalLayout) (hd : AreDigits ds) (hne : ds ≠ [])
    (e : Int) :
    unsigned? (layout.scientific ds e) =
      some (.ofDecimal (digitsValue ds) (e + 1 - ds.length)) := by
  obtain ⟨cs, zeros, hlayout, hcs, hm⟩ := exists_scientific_eq layout hd hne e
  have hsign : (if e < 0 then '-' else '+') = '-' ∨ (if e < 0 then '-' else '+') = '+' := by
    split
    · exact .inl rfl
    · exact .inr rfl
  have hpower := (areDigits_replicate zeros).append (areDigits_toDigits e.natAbs)
  rw [hlayout, unsigned?_power hcs hm hsign hpower (exponent?_signed e zeros)]
  have hshift : 1 - (ds.length : Int) + e = e + 1 - ds.length := by omega
  rw [hshift, Decimal.magnitude]

/-- Whatever the layout, a decimal is read back from it. -/
theorem unsigned?_layOut (layout : DecimalLayout) (d : Decimal) :
    unsigned? (layout.layOut d) = some d.magnitude := by
  have hd := d.areDigits_significant
  have hne := d.significant_ne_nil
  unfold DecimalLayout.layOut
  dsimp only
  split
  · rw [unsigned?_positional hd hne, d.ofDecimal_significant]
  · rw [unsigned?_scientific layout hd hne, Int.sub_add_cancel, d.ofDecimal_significant]

/-! ## The text of a number -/

/-- The text of a number that has no sign is read back as the number. -/
theorem unsigned?_text (m : Magnitude) : unsigned? (signed false m).text.toList = some m := by
  simp only [text, Bool.false_eq_true, if_false, List.nil_append, String.toList_ofList]
  by_cases hf : m.isFinite = true
  · rw [hf]
    by_cases h0 : m.rank = 0
    · rw [if_neg (by decide), if_pos h0]
      exact congrArg some (Magnitude.eq_of_rank_eq h0.symm)
    · rw [if_neg (by decide), if_neg h0, unsigned?_layOut, Magnitude.shortest_magnitude hf]
  · have hm : m = .infinity := by
      have hle : infinityRank ≤ m.rank := by simpa [Magnitude.isFinite] using hf
      exact Magnitude.eq_of_rank_eq (Nat.le_antisymm m.rank_le hle)
    rw [if_pos (by simpa using hf), hm]
    rfl

/-- A whole number is written with its digits. -/
theorem toList_compactText_of_isWhole {m : Magnitude} (h : m.isWhole = true) :
    (signed false m).compactText.toList = Nat.toDigits 10 m.whole := by
  simp [compactText, h]

theorem compactText_of_not_isWhole {m : Magnitude} (h : ¬ m.isWhole = true) :
    (signed false m).compactText = (signed false m).text := by
  simp [compactText, h]

/-- The compact text is read back likewise. -/
theorem unsigned?_compactText (m : Magnitude) :
    unsigned? (signed false m).compactText.toList = some m := by
  by_cases hw : m.isWhole = true
  · have hd := areDigits_toDigits m.whole
    rw [toList_compactText_of_isWhole hw, unsigned?_mantissa (fun c hc => .inl (hd c hc))
      (mantissa?_digits hd Nat.toDigits_ne_nil), digitsValue_toDigits]
    exact congrArg some (Magnitude.ofDecimal_whole hw)
  · rw [compactText_of_not_isWhole hw]
    exact unsigned?_text m

/-- No two numbers share their compact text. -/
theorem compactText_inj {m n : Magnitude} :
    (signed false m).compactText = (signed false n).compactText ↔ m = n := by
  refine ⟨?_, fun h => h ▸ rfl⟩
  intro h
  have hm := unsigned?_compactText m
  rw [h, unsigned?_compactText n] at hm
  exact (Option.some.inj hm).symm

/-! ## What a text is made of -/

/-- A digit, and then digits, points and what belongs to an exponent. -/
structure IsNumeral (cs : List Char) : Prop where
  first : ∃ c rest, cs = c :: rest ∧ c.isDigit = true
  parts : ∀ c ∈ cs, c.isDigit = true ∨ c ∈ ['.', 'e', '+', '-']

theorem IsMantissa.isNumeral (h : IsMantissa cs) : IsNumeral cs := by
  refine ⟨h.first, ?_⟩
  intro c hc
  obtain hd | rfl := h.digits c hc
  · exact .inl hd
  · exact .inr List.mem_cons_self

theorem IsNumeral.append (h : IsNumeral cs)
    (he : ∀ c ∈ es, c.isDigit = true ∨ c ∈ ['.', 'e', '+', '-']) : IsNumeral (cs ++ es) := by
  refine ⟨?_, ?_⟩
  · obtain ⟨c, rest, rfl, hc⟩ := h.first
    exact ⟨c, _, rfl, hc⟩
  · intro c hc
    obtain hc | hc := List.mem_append.1 hc
    · exact h.parts c hc
    · exact he c hc

theorem isNumeral_layOut (layout : DecimalLayout) (d : Decimal) : IsNumeral (layout.layOut d) := by
  have hd := d.areDigits_significant
  have hne := d.significant_ne_nil
  unfold DecimalLayout.layOut
  dsimp only
  split
  · obtain ⟨front, back, hlayout, hf, hb, hfne, -⟩ := exists_positional_eq hd hne d.point
    rw [hlayout]
    exact (IsMantissa.point hf hb hfne).isNumeral
  · obtain ⟨cs, zeros, hlayout, hcs, -⟩ := exists_scientific_eq layout hd hne (d.point - 1)
    rw [hlayout]
    refine hcs.isNumeral.append ?_
    intro c hc
    obtain rfl | hc := List.mem_cons.1 hc
    · exact .inr (by decide)
    · obtain rfl | hc := List.mem_cons.1 hc
      · right
        split <;> decide
      · exact .inl (((areDigits_replicate zeros).append (areDigits_toDigits _)) c hc)

/-- Finite numbers are written as numerals. -/
theorem isNumeral_compactText {m : Magnitude} (h : m.isFinite = true) :
    IsNumeral (signed false m).compactText.toList := by
  by_cases hw : m.isWhole = true
  · rw [toList_compactText_of_isWhole hw]
    exact (IsMantissa.of_digits (areDigits_toDigits m.whole) Nat.toDigits_ne_nil).isNumeral
  · have h0 : m.rank ≠ 0 := by
      intro h0
      obtain rfl : m = .zero := Magnitude.eq_of_rank_eq h0
      exact hw (by decide +kernel)
    rw [compactText_of_not_isWhole hw]
    simp only [text, h, Bool.not_true, Bool.false_eq_true, if_false, if_neg h0, List.nil_append,
      String.toList_ofList]
    exact isNumeral_layOut _ _

/-- Infinity is written as a word. -/
theorem compactText_of_not_isFinite {m : Magnitude} (h : m.isFinite = false) :
    (signed false m).compactText = "inf" := by
  simp [compactText, text, Magnitude.isWhole, h]

end Binary64

end OperatorGrammar
