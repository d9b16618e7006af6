import OperatorGrammar.Proofs.Literal.Pattern
import OperatorGrammar.Proofs.Number.Text

/-!
Runs of digits and points, which is what is scanned as a number. A run is read by the longest
well-formed text at its front, and what follows is ignored; it is well formed if nothing is
ignored. A well-formed text is one that every reader of numbers understands, and it is read as the
number that such a reader takes it for. Main statements: `isLiteral_iff`, `ofText?_literal` and
`readByLongest_of_run`.
-/

namespace OperatorGrammar

/-! ## Texts without blanks, signs and underscores -/

namespace Text

variable {cs : List Char}

theorem trimBlanks_of_not_isBlank (h : ∀ c ∈ cs, isBlank c = false) : trimBlanks cs = cs := by
  have hdrop (ds : List Char) (hd : ∀ c ∈ ds, isBlank c = false) : ds.dropWhile isBlank = ds := by
    cases ds with
    | nil => rfl
    | cons d ds => exact List.dropWhile_cons_of_neg (by simp [hd d List.mem_cons_self])
  rw [trimBlanks, hdrop cs h, hdrop cs.reverse fun c hc => h c (List.mem_reverse.1 hc),
    List.reverse_reverse]

theorem splitSign_of_not_mem (hm : '-' ∉ cs) (hp : '+' ∉ cs) : splitSign cs = (false, cs) := by
  unfold splitSign
  split
  · exact absurd List.mem_cons_self hm
  · exact absurd List.mem_cons_self hp
  · rfl

theorem ungrouped?_of_not_mem (h : '_' ∉ cs) (behindDigit : Bool) :
    ungrouped? behindDigit cs = some cs := by
  induction cs generalizing behindDigit with
  | nil => rfl
  | cons c cs ih =>
    rw [List.mem_cons, not_or] at h
    rw [ungrouped?, ih h.2]
    · rfl
    · rintro rfl
      exact h.1 rfl

theorem not_isBlank_of_isDigit {c : Char} (h : c.isDigit = true) : isBlank c = false := by
  obtain ⟨h0, h9⟩ := toNat_of_isDigit h
  simp only [isBlank, Bool.or_eq_false_iff, Bool.and_eq_false_iff, decide_eq_false_iff_not,
    beq_eq_false_iff_ne]
  omega

end Text

namespace Literal

open Text Binary64 Scanner

variable {cs text : List Char}

/-! ## Literals among digits and points -/

/-- No digit of any script is a point. -/
theorem ne_point_of_isDecimalDigit {c : Char} (h : isDecimalDigit c = true) : c ≠ '.' := by
  rintro rfl
  exact absurd h (by decide)

theorem point_not_mem (h : ∀ c ∈ cs, isDecimalDigit c = true) : '.' ∉ cs := fun hp =>
  ne_point_of_isDecimalDigit (h _ hp) rfl

theorem digits_of_point_not_mem (h : ∀ c ∈ cs, isDecimalDigit c = true ∨ c = '.')
    (hp : '.' ∉ cs) : ∀ c ∈ cs, isDecimalDigit c = true := by
  intro c hc
  obtain hd | rfl := h c hc
  · exact hd
  · exact absurd hc hp

/-- A literal has a digit, and it does not have two points. -/
theorem isLiteral_iff : IsLiteral cs ↔
    (∀ c ∈ cs, isDecimalDigit c = true ∨ c = '.') ∧ (∃ c ∈ cs, isDecimalDigit c = true) ∧
      cs.count '.' ≤ 1 := by
  constructor
  · intro h
    cases h with
    | whole hne hd =>
      obtain ⟨c, hc⟩ := List.exists_mem_of_ne_nil _ hne
      refine ⟨fun c hc => .inl (hd c hc), ⟨c, hc, hd c hc⟩, ?_⟩
      rw [List.count_eq_zero.2 (point_not_mem hd)]
      exact Nat.zero_le 1
    | @point ds es hd he hne =>
      have hde : ∀ c ∈ ds ++ es, isDecimalDigit c = true := List.forall_mem_append.2 ⟨hd, he⟩
      obtain ⟨c, hc⟩ := List.exists_mem_of_ne_nil _ hne
      have hmem {c : Char} : c ∈ ds ++ '.' :: es ↔ c ∈ ds ++ es ∨ c = '.' := by
        simp only [List.mem_append, List.mem_cons]
        tauto
      refine ⟨fun c hc => (hmem.1 hc).imp_left (hde c), ⟨c, hmem.2 (.inl hc), hde c hc⟩, ?_⟩
      rw [List.count_append, List.count_cons_self, List.count_eq_zero.2 (point_not_mem hd),
        List.count_eq_zero.2 (point_not_mem he)]
  · rintro ⟨hall, ⟨d, hd, hdigit⟩, hcount⟩
    by_cases hp : '.' ∈ cs
    · obtain ⟨ds, es, rfl⟩ := List.append_of_mem hp
      obtain ⟨hds, hes⟩ := List.forall_mem_append.1 hall
      rw [List.count_append, List.count_cons_self] at hcount
      have hpd : '.' ∉ ds := List.count_eq_zero.1 (by omega)
      have hpe : '.' ∉ es := List.count_eq_zero.1 (by omega)
      refine .point (digits_of_point_not_mem hds hpd)
        (digits_of_point_not_mem (List.forall_mem_cons.1 hes).2 hpe) ?_
      intro hnil
      obtain ⟨rfl, rfl⟩ := List.append_eq_nil_iff.1 hnil
      exact ne_point_of_isDecimalDigit hdigit (List.mem_singleton.1 hd)
    · exact .whole (List.ne_nil_of_mem hd) (digits_of_point_not_mem hall hp)

/-- Nothing is found only in front of two points and of a point that is alone. -/
theorem longest_eq_nil_iff (hne : cs ≠ []) (h : ∀ c ∈ cs, isDecimalDigit c = true ∨ c = '.') :
    longest cs = [] ↔ cs = ['.'] ∨ ['.', '.'] <+: cs := by
  obtain ⟨c, cs, rfl⟩ := List.exists_cons_of_ne_nil hne
  obtain ⟨hc, hcs⟩ := List.forall_mem_cons.1 h
  obtain hc | rfl := hc
  · have hpoint := ne_point_of_isDecimalDigit hc
    simp [longest_cons_digit_ne_nil hc, hpoint, hpoint.symm]
  · rw [longest_cons_point]
    cases cs with
    | nil => simp
    | cons d ds =>
      obtain hd | rfl := hcs d List.mem_cons_self
      · simp [hd, (ne_point_of_isDecimalDigit hd).symm]
      · have hpoint : isDecimalDigit '.' = false := by decide
        simp [hpoint]

/-! ## The number that a literal writes -/

/-- A literal is a mantissa, whatever script its digits are of. -/
theorem mantissa?_literal (h : IsLiteral cs) : mantissa? cs = some (decimal cs) := by
  cases h with
  | whole hne hd =>
    have hp := point_not_mem hd
    simp [mantissa?, decimal, takeWhile_bne_of_not_mem hp, dropWhile_bne_of_not_mem hp,
      allDigits?_of_forall hd, hne]
  | @point ds es hd he hne =>
    have hp := point_not_mem hd
    have hde : allDigits? (ds ++ es) = some (digitsValue (ds ++ es)) :=
      allDigits?_of_forall (List.forall_mem_append.2 ⟨hd, he⟩)
    have hsome : ds = [] → es ≠ [] := fun hds hes => hne (by rw [hds, hes, List.append_nil])
    simpa [mantissa?, decimal, takeWhile_bne_append hp, dropWhile_bne_append hp, hde] using hsome

/-- The text of a literal is understood as the number that the literal writes. -/
theorem ofText?_literal (h : IsLiteral cs) (hcs : ∀ c ∈ cs, c.isDigit = true ∨ c = '.') :
    ofText? (String.ofList cs) = some (.signed false (decimal cs).magnitude) := by
  have hno {c : Char} (hc : c.isDigit = false) (hp : c ≠ '.') : c ∉ cs :=
    not_mem_of_digits hcs hc hp
  have hblank : ∀ c ∈ cs, Text.isBlank c = false := by
    intro c hc
    obtain hd | rfl := hcs c hc
    · exact not_isBlank_of_isDigit hd
    · decide
  have hnan : cs.map Char.toLower ≠ ['n', 'a', 'n'] := by
    rw [map_toLower hcs]
    rintro rfl
    exact hno (by decide) (by decide) List.mem_cons_self
  unfold ofText?
  rw [String.toList_ofList, trimBlanks_of_not_isBlank hblank,
    splitSign_of_not_mem (hno (by decide) (by decide)) (hno (by decide) (by decide))]
  dsimp only
  rw [ungrouped?_of_not_mem (hno (by decide) (by decide))]
  dsimp only
  rw [if_neg hnan, unsigned?_mantissa hcs (mantissa?_literal h)]
  rfl

/-! ## Runs -/

/-- A run is well formed if it has a digit and does not have two points. -/
theorem isWellFormed_iff_of_run (h : ∀ c ∈ text, c.isDigit = true ∨ c = '.') :
    isWellFormed (String.ofList text) = true ↔
      (∃ c ∈ text, c.isDigit = true) ∧ text.count '.' ≤ 1 := by
  have hdigit {c : Char} (hc : c ∈ text) : isDecimalDigit c = true ↔ c.isDigit = true := by
    refine ⟨fun hd => ?_, isDecimalDigit_of_isDigit⟩
    exact (h c hc).resolve_right (ne_point_of_isDecimalDigit hd)
  have hdigits : ∀ c ∈ text, isDecimalDigit c = true ∨ c = '.' := fun c hc =>
    (h c hc).imp_left (hdigit hc).2
  rw [isWellFormed_ofList_iff, isLiteral_iff, and_iff_right hdigits]
  exact and_congr_left' (exists_congr fun c => and_congr_right hdigit)

theorem value_of_longest_eq_nil (h : longest text = []) : value (String.ofList text) = .zero := by
  rw [value, String.toList_ofList, h]

theorem value_of_longest_ne_nil (h : longest text ≠ []) :
    value (String.ofList text) = .signed false (decimal (longest text)).magnitude := by
  rw [value, String.toList_ofList]
  split
  · exact absurd ‹_› h
  · rfl

/-- A text is read by the longest well-formed text at its front. -/
structure ReadByLongest (text : List Char) : Prop where
  /-- What is well formed has a digit, and it does not have two points. -/
  wellFormed : isWellFormed (String.ofList text) = true ↔
    (∃ c ∈ text, c.isDigit = true) ∧ text.count '.' ≤ 1
  /-- What is well formed is matched as a whole, in some of the ways to match it. -/
  isMatched : isWellFormed (String.ofList text) = true ↔ [] ∈ Pattern.literal.rests text
  /-- The way that is tried first finds the longest well-formed text. -/
  isFirst : Pattern.literal.first? text =
    if wellFormedLength text = 0 then none else some (text.take (wellFormedLength text))
  /-- What is found is always a number, and its value is taken. -/
  isRead : wellFormedLength text ≠ 0 →
    ofText? (String.ofList (text.take (wellFormedLength text))) = some (value (String.ofList text))
  /-- If nothing is found, the value is zero. -/
  isZero : wellFormedLength text = 0 → value (String.ofList text) = .zero
  /-- Nothing is found in front of two points, and of a point that is alone. -/
  findsNothing : wellFormedLength text = 0 ↔ text = ['.'] ∨ ['.', '.'] <+: text
  /-- Nothing is ignored if the text is well formed, and only then. -/
  ignoresNothing : text.take (wellFormedLength text) = text ↔
    isWellFormed (String.ofList text) = true

/-- Every run of digits and points is read by the longest well-formed text at its front. -/
theorem readByLongest_of_run (hne : text ≠ []) (hrun : ∀ c ∈ text, isDigitOrPoint c = true) :
    ReadByLongest text := by
  have hcs : ∀ c ∈ text, c.isDigit = true ∨ c = '.' := by
    intro c hc
    simpa [isDigitOrPoint] using hrun c hc
  have hdigits : ∀ c ∈ text, isDecimalDigit c = true ∨ c = '.' := fun c hc =>
    (hcs c hc).imp_left isDecimalDigit_of_isDigit
  refine ⟨isWellFormed_iff_of_run hcs, Pattern.isWellFormed_iff_mem_rests, ?isFirst, ?isRead,
    ?isZero, ?findsNothing, ?ignoresNothing⟩
  case isFirst =>
    rw [Pattern.first?_literal, take_wellFormedLength]
    simp only [wellFormedLength_eq_zero_iff]
  case isRead =>
    intro h
    have hfound := mt wellFormedLength_eq_zero_iff.2 h
    have hused : ∀ c ∈ longest text, c.isDigit = true ∨ c = '.' := fun c hc =>
      hcs c ((longest_isPrefix text).subset hc)
    rw [take_wellFormedLength, ofText?_literal (isLiteral_longest hfound) hused,
      value_of_longest_ne_nil hfound]
  case isZero =>
    intro h
    exact value_of_longest_eq_nil (wellFormedLength_eq_zero_iff.1 h)
  case findsNothing =>
    rw [wellFormedLength_eq_zero_iff]
    exact longest_eq_nil_iff hne hdigits
  case ignoresNothing =>
    rw [take_wellFormedLength, isWellFormed_ofList_iff]
    constructor
    · intro h
      rw [← h]
      exact isLiteral_longest (h.symm ▸ hne)
    · exact IsLiteral.longest_eq

theorem readByLongest_of_two_points :
    ReadByLongest ['1', '.', '2', '.', '3'] ∧ wellFormedLength ['1', '.', '2', '.', '3'] = 3 :=
  ⟨readByLongest_of_run (by decide) (List.all_eq_true.1 (by decide)),
    (wellFormedLength_eq _).trans (by decide)⟩

end Literal

end OperatorGrammar
