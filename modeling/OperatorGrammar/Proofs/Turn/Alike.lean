import OperatorGrammar.Proofs.Outcome
import OperatorGrammar.Proofs.Turn.Joined

/-!
Runs over inputs that are read alike. They hand out alike results, under whatever number of errors
they stop. Main statement: `Session.start_results_alike`.
-/

namespace OperatorGrammar

variable {T : Scanned → Scanned → Prop} {m : Location → Location}

namespace FormResult

variable {r r' : FormResult} {rs rs' : List FormResult}

theorem Alike.failure? (h : r.Alike T m r') : r'.failure?.isSome = r.failure?.isSome := by
  obtain ⟨kind, outcome⟩ := r
  obtain ⟨kind', outcome'⟩ := r'
  cases h.outcome <;> rfl

/-- As many of alike results are handed out up to a number of failures. -/
theorem untilFailures_alike (h : List.Forall₂ (Alike T m) rs rs') (k : Nat) :
    List.Forall₂ (Alike T m) (untilFailures k rs) (untilFailures k rs') := by
  induction h generalizing k with
  | nil =>
    rw [untilFailures_nil]
    exact .nil
  | @cons r r' rs rs' hr _ ih =>
    cases k with
    | zero => exact .nil
    | succ k =>
      have hlength : r'.failure?.toList.length = r.failure?.toList.length := by
        have hs := hr.failure?
        cases hf : r.failure? <;> cases hf' : r'.failure? <;> simp_all
      rw [untilFailures_cons (Nat.succ_pos k), untilFailures_cons (Nat.succ_pos k), hlength]
      exact .cons hr (ih _)

end FormResult

namespace Session

variable {R : Rules} {file file' : String} {source source' : Source}

/-- Runs over inputs that are read alike hand out alike results. -/
theorem start_results_alike (hT : R.Pairs m T)
    (h : (Upcoming.ofSource file source).Paired T (Upcoming.ofSource file' source'))
    (maxErrors : Int) :
    List.Forall₂ (FormResult.Alike T m) (start R maxErrors file source).results
      (start R maxErrors file' source').results := by
  by_cases hpos : 1 ≤ maxErrors
  · obtain ⟨k, rfl⟩ : ∃ k : Nat, maxErrors = k := ⟨maxErrors.toNat, by omega⟩
    have hforms := Parser.forms_alike (p := (Parser.start R file source).prime) hT h
    rw [start_results_eq_untilFailures R file source (by omega),
      start_results_eq_untilFailures R file' source' (by omega)]
    exact FormResult.untilFailures_alike hforms k
  · rw [start_results_of_one_turn R file source hpos, start_results_of_one_turn R file' source' hpos]
    have hnil : (Upcoming.ofSource file source).tokens = [] ↔
        (Upcoming.ofSource file' source').tokens = [] := by
      rw [← List.length_eq_zero_iff, h.tokens.length_eq, List.length_eq_zero_iff]
    by_cases hne : (Upcoming.ofSource file source).tokens = []
    · rw [if_pos hne, if_pos (hnil.1 hne)]
      exact .nil
    · rw [if_neg hne, if_neg (mt hnil.2 hne)]
      exact (Parser.turn_alike (p := (Parser.start R file source).prime) hT h).1

end Session

end OperatorGrammar
