import OperatorGrammar.Precedence
import OperatorGrammar.Proofs.Number.Text
import OperatorGrammar.Proofs.Scanning.Layout

/-!
Plain texts. They have printable ASCII characters only, so they take up one line and hold no control
sequences. Names, numbers and operators are plain, and so is what is put together from them.
-/

namespace OperatorGrammar

open Scanner

theorem not_mem_intercalate {c : Char} {sep : String} {xs : List String} (hsep : c ∉ sep.toList)
    (hxs : ∀ x ∈ xs, c ∉ x.toList) : c ∉ (sep.intercalate xs).toList := by
  rw [String.toList_intercalate]
  induction xs with
  | nil => exact List.not_mem_nil
  | cons x xs ih =>
    obtain ⟨hx, hxs⟩ := List.forall_mem_cons.1 hxs
    cases xs with
    | nil => simpa using hx
    | cons y ys =>
      rw [List.map_cons, List.map_cons, List.intercalate_cons_cons, ← List.map_cons,
        List.mem_append, List.mem_append]
      exact not_or.2 ⟨not_or.2 ⟨hx, hsep⟩, ih hxs⟩

/-- A text of printable ASCII characters. -/
def IsPlain (x : String) : Prop := ∀ c ∈ x.toList, PrecedenceTable.isPrintableAscii c = true

instance (x : String) : Decidable (IsPlain x) := List.decidableBAll _ _

variable {x y : String} {xs : List String} {c : Char}

namespace IsPlain

theorem append (hx : IsPlain x) (hy : IsPlain y) : IsPlain (x ++ y) := by
  intro c hc
  rw [String.toList_append] at hc
  exact (List.mem_append.1 hc).elim (hx c) (hy c)

theorem not_mem (h : IsPlain x) (hc : PrecedenceTable.isPrintableAscii c = false) :
    c ∉ x.toList := by
  intro hmem
  rw [h c hmem] at hc
  cases hc

theorem intercalate (hy : IsPlain y) (hxs : ∀ x ∈ xs, IsPlain x) : IsPlain (y.intercalate xs) := by
  intro c hc
  by_contra hn
  rw [Bool.not_eq_true] at hn
  exact not_mem_intercalate (hy.not_mem hn) (fun x hx => (hxs x hx).not_mem hn) hc

end IsPlain

theorem isPrintableAscii_of_isAlphanum (h : c.isAlphanum = true) :
    PrecedenceTable.isPrintableAscii c = true := by
  delta Char.isAlphanum Char.isAlpha Char.isUpper Char.isLower Char.isDigit at h
  simp only [Bool.or_eq_true, Bool.and_eq_true, decide_eq_true_eq, UInt32.le_iff_toNat_le,
    ge_iff_le] at h
  change ((65 ≤ c.toNat ∧ c.toNat ≤ 90) ∨ (97 ≤ c.toNat ∧ c.toNat ≤ 122)) ∨
    (48 ≤ c.toNat ∧ c.toNat ≤ 57) at h
  simp only [PrecedenceTable.isPrintableAscii, Bool.and_eq_true, decide_eq_true_eq]
  omega

theorem isPlain_name (h : IsName x) : IsPlain x := by
  obtain ⟨d, cs, hx, hd, hcs⟩ := h.letters
  intro c hc
  rw [hx] at hc
  apply isPrintableAscii_of_isAlphanum
  rcases List.mem_cons.1 hc with rfl | hc
  · exact isLetterOrDigit_of_isLetter hd
  · exact hcs c hc

theorem isPlain_operator (h : PrecedenceTable.isUsable c = true) : IsPlain c.toString := by
  intro d hd
  obtain rfl : d = c := by simpa using hd
  exact (Bool.and_eq_true_iff.1 h).1

theorem isPlain_digits (n : Nat) : IsPlain (toString n) := by
  intro c hc
  rw [Nat.toString_eq_repr, Nat.toList_repr] at hc
  exact isPrintableAscii_of_isAlphanum (by
    rw [Char.isAlphanum, Text.areDigits_toDigits n c hc, Bool.or_true])

theorem isPlain_compactText (m : Magnitude) : IsPlain (Binary64.signed false m).compactText := by
  by_cases hf : m.isFinite = true
  · intro c hc
    obtain hd | hp := (Binary64.isNumeral_compactText hf).parts c hc
    · exact isPrintableAscii_of_isAlphanum (by rw [Char.isAlphanum, hd, Bool.or_true])
    · simp only [List.mem_cons, List.not_mem_nil, or_false] at hp
      rcases hp with rfl | rfl | rfl | rfl <;> decide
  · rw [Binary64.compactText_of_not_isFinite (by simpa using hf)]
    decide

end OperatorGrammar
