import Mathlib.Data.Nat.Find
import OperatorGrammar.Proofs.Scanning.Lossless

/-!
Literals at the front of a text. What a text is accepted for and what its value is taken from line
up: the part that has a value is the longest one at the front that is accepted. A text can be cut
down to that part; then it is accepted, and its value is the same. Main statements:
`isWellFormed_ofList_iff`, `wellFormedLength_eq` and `value_truncated`.
-/

namespace OperatorGrammar.Literal

open Text Scanner

/-- Digits, at least one, and at most one point. -/
inductive IsLiteral : List Char → Prop where
  | whole {ds : List Char} : ds ≠ [] → (∀ d ∈ ds, isDecimalDigit d = true) → IsLiteral ds
  | point {ds es : List Char} : (∀ d ∈ ds, isDecimalDigit d = true) →
    (∀ d ∈ es, isDecimalDigit d = true) → ds ++ es ≠ [] → IsLiteral (ds ++ '.' :: es)

variable {cs p : List Char}

/-! ## What is found at the front of a text -/

theorem longest_of_no_point (h : ∀ rest, cs.dropWhile isDecimalDigit ≠ '.' :: rest) :
    longest cs = cs.takeWhile isDecimalDigit := by
  unfold longest
  dsimp only
  split
  · exact absurd ‹_› (h _)
  · rfl

theorem longest_of_point {rest : List Char} (h : cs.dropWhile isDecimalDigit = '.' :: rest) :
    longest cs =
      if cs.takeWhile isDecimalDigit ++ rest.takeWhile isDecimalDigit = [] then []
      else cs.takeWhile isDecimalDigit ++ '.' :: rest.takeWhile isDecimalDigit := by
  unfold longest
  simp only [h, Bool.and_eq_true, List.isEmpty_iff, List.append_eq_nil_iff]

theorem longest_cons_point (cs : List Char) :
    longest ('.' :: cs) =
      if cs.takeWhile isDecimalDigit = [] then [] else '.' :: cs.takeWhile isDecimalDigit :=
  longest_of_point (List.dropWhile_cons_of_neg (by decide))

theorem isLiteral_longest (h : longest cs ≠ []) : IsLiteral (longest cs) := by
  by_cases hp : ∃ rest, cs.dropWhile isDecimalDigit = '.' :: rest
  · obtain ⟨rest, hp⟩ := hp
    rw [longest_of_point hp] at h ⊢
    split at h
    · exact absurd rfl h
    · rename_i hne
      rw [if_neg hne]
      exact .point all_takeWhile all_takeWhile hne
  · have hw := longest_of_no_point fun rest he => hp ⟨rest, he⟩
    rw [hw] at h ⊢
    exact .whole h all_takeWhile

theorem longest_isPrefix (cs : List Char) : longest cs <+: cs := by
  have hcs := List.takeWhile_append_dropWhile (p := isDecimalDigit) (l := cs)
  by_cases hp : ∃ rest, cs.dropWhile isDecimalDigit = '.' :: rest
  · obtain ⟨rest, hp⟩ := hp
    rw [longest_of_point hp]
    split
    · exact List.nil_prefix
    · obtain ⟨more, hmore⟩ := List.takeWhile_prefix isDecimalDigit (l := rest)
      refine ⟨more, ?_⟩
      rw [List.append_assoc, List.cons_append, hmore, ← hp, hcs]
  · rw [longest_of_no_point fun rest he => hp ⟨rest, he⟩]
    exact List.takeWhile_prefix isDecimalDigit

/-- A literal at the front of a text is at the front of what is found there. -/
theorem IsLiteral.isPrefix_longest (h : IsLiteral p) (hp : p <+: cs) : p <+: longest cs := by
  obtain ⟨x, rfl⟩ := hp
  cases h with
  | whole hne hd =>
    have htake : (p ++ x).takeWhile isDecimalDigit = p ++ x.takeWhile isDecimalDigit :=
      List.takeWhile_append_of_pos hd
    by_cases hp : ∃ rest, (p ++ x).dropWhile isDecimalDigit = '.' :: rest
    · obtain ⟨rest, hp⟩ := hp
      rw [longest_of_point hp, if_neg (by simp [htake, hne]), htake, List.append_assoc]
      exact List.prefix_append _ _
    · rw [longest_of_no_point fun rest he => hp ⟨rest, he⟩, htake]
      exact List.prefix_append _ _
  | @point ds es hd he hne =>
    have hpoint : ∀ c ∈ ('.' :: (es ++ x)).head?, isDecimalDigit c = false := by
      intro c hc
      obtain rfl := Option.some.inj hc
      decide
    have htake : (ds ++ '.' :: (es ++ x)).takeWhile isDecimalDigit = ds :=
      takeWhile_append_of_ends hd hpoint
    have hdrop : (ds ++ '.' :: (es ++ x)).dropWhile isDecimalDigit = '.' :: (es ++ x) := by
      rw [List.dropWhile_append_of_pos hd]
      exact List.dropWhile_cons_of_neg (by decide)
    have hfraction : (es ++ x).takeWhile isDecimalDigit = es ++ x.takeWhile isDecimalDigit :=
      List.takeWhile_append_of_pos he
    have hne' : ds ++ (es ++ x.takeWhile isDecimalDigit) ≠ [] := by
      rw [← List.append_assoc]
      exact List.append_ne_nil_of_left_ne_nil hne _
    rw [List.append_assoc, List.cons_append, longest_of_point hdrop, htake, hfraction, if_neg hne']
    exact ⟨x.takeWhile isDecimalDigit, by simp⟩

/-- A digit at the front is a literal already. -/
theorem longest_cons_digit_ne_nil {c : Char} (hc : isDecimalDigit c = true) (cs : List Char) :
    longest (c :: cs) ≠ [] := by
  have hdigit : IsLiteral [c] := .whole (List.cons_ne_nil _ _) (List.forall_mem_singleton.2 hc)
  have hfront : [c] <+: longest (c :: cs) := hdigit.isPrefix_longest ⟨cs, rfl⟩
  exact hfront.ne_nil (List.cons_ne_nil _ _)

theorem IsLiteral.ne_nil (h : IsLiteral p) : p ≠ [] := by
  cases h with
  | whole hne _ => exact hne
  | point _ _ _ => simp

theorem IsLiteral.longest_eq (h : IsLiteral p) : longest p = p :=
  ((longest_isPrefix p).eq_of_length_le (h.isPrefix_longest (List.prefix_refl p)).length_le)

/-- A text is accepted if it is a literal as a whole. -/
theorem isWellFormed_ofList_iff : isWellFormed (String.ofList cs) = true ↔ IsLiteral cs := by
  simp only [isWellFormed, Bool.and_eq_true, Bool.not_eq_true', beq_iff_eq, String.toList_ofList]
  constructor
  · rintro ⟨hne, h⟩
    have hcs : cs ≠ [] := by
      rintro rfl
      exact absurd hne (by decide)
    rw [← h]
    exact isLiteral_longest (h.symm ▸ hcs)
  · intro h
    refine ⟨?_, h.longest_eq⟩
    simpa using h.ne_nil

/-! ## Cutting a text down -/

/-- How long the longest well-formed text at the front of a text is; zero if there is none. -/
def wellFormedLength (cs : List Char) : Nat :=
  Nat.findGreatest (fun n => isWellFormed (String.ofList (cs.take n)) = true) cs.length

/-- The longest well-formed text at the front of a text, or a zero if there is none. -/
def truncated (cs : List Char) : List Char :=
  if wellFormedLength cs = 0 then ['0'] else cs.take (wellFormedLength cs)

/-- The texts that are accepted and the text that a value is taken from line up. -/
theorem wellFormedLength_eq (cs : List Char) : wellFormedLength cs = (longest cs).length := by
  have hpre := longest_isPrefix cs
  refine Nat.findGreatest_eq_iff.2 ⟨hpre.length_le, ?_, ?_⟩
  · intro hpos
    rw [← List.prefix_iff_eq_take.1 hpre, isWellFormed_ofList_iff]
    exact isLiteral_longest (mt List.length_eq_zero_iff.2 hpos)
  · -- a longer literal would have been found
    intro n hlt hle hw
    have hmax := (isWellFormed_ofList_iff.1 hw).isPrefix_longest (List.take_prefix n cs)
    have hlen := hmax.length_le
    rw [List.length_take_of_le hle] at hlen
    exact absurd hlen (Nat.not_le.2 hlt)

theorem wellFormedLength_eq_zero_iff : wellFormedLength cs = 0 ↔ longest cs = [] := by
  rw [wellFormedLength_eq, List.length_eq_zero_iff]

theorem take_wellFormedLength (cs : List Char) : cs.take (wellFormedLength cs) = longest cs := by
  rw [wellFormedLength_eq, ← List.prefix_iff_eq_take.1 (longest_isPrefix cs)]

theorem truncated_eq (cs : List Char) :
    truncated cs = if longest cs = [] then ['0'] else longest cs := by
  simp only [truncated, wellFormedLength_eq_zero_iff, take_wellFormedLength]

theorem isLiteral_truncated (cs : List Char) : IsLiteral (truncated cs) := by
  rw [truncated_eq]
  split
  · exact .whole (List.cons_ne_nil _ _) (List.forall_mem_singleton.2 (by decide))
  · exact isLiteral_longest ‹_›

/-- A text and what it is cut down to have one value. -/
theorem value_truncated (cs : List Char) :
    value (String.ofList (truncated cs)) = value (String.ofList cs) := by
  have hlongest := (isLiteral_truncated cs).longest_eq
  unfold value
  rw [String.toList_ofList, String.toList_ofList, hlongest, truncated_eq]
  by_cases h : longest cs = []
  · rw [if_pos h, h]
    rfl
  · rw [if_neg h]

theorem truncated_of_isLiteral (h : IsLiteral cs) : truncated cs = cs := by
  rw [truncated_eq, h.longest_eq, if_neg h.ne_nil]

/-- A text that is not empty becomes no longer. -/
theorem length_truncated_le (h : cs ≠ []) : (truncated cs).length ≤ cs.length := by
  rw [truncated_eq]
  split
  · exact List.length_pos_iff.2 h
  · exact (longest_isPrefix cs).length_le

end OperatorGrammar.Literal
