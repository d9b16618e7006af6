import OperatorGrammar.Proofs.Scanning

/-!
Places in a text. At the place of a token the text goes on with the token's characters, and each
token stands behind the one before. Main statements: `Upcoming.mem_standsIn` and
`Upcoming.ofAnswers_inOrder`.
-/

namespace OperatorGrammar

/-- The text behind a number of line feeds and, on the line that starts there, a number of
columns. -/
def textBehind : (lines columns : Nat) → List Char → List Char
  | 0, columns, text => text.drop columns
  | lines + 1, columns, text => textBehind lines columns (text.dropWhile (· != '\n')).tail

/-- The text from a place on. -/
def Location.textAt (l : Location) (text : List Char) : List Char :=
  textBehind (l.line - 1).toNat (l.column - 1).toNat text

/-- One place is on an earlier line than another, or in an earlier column of the same line. -/
def Location.IsBefore (l m : Location) : Prop :=
  l.line < m.line ∨ l.line = m.line ∧ l.column < m.column

theorem Location.IsBefore.ne {l m : Location} (h : l.IsBefore m) : l ≠ m := by
  rintro rfl
  rcases h with h | ⟨-, h⟩ <;> exact Int.lt_irrefl _ h

/-- A token has characters, and they stand at its place. -/
structure Token.StandsIn (text : List Char) (t : Token) : Prop where
  nonempty : t.lexeme.text ≠ ""
  text : t.lexeme.text.toList <+: t.location.textAt text

theorem bne_of_not_mem {text : List Char} {c : Char} (h : c ∉ text) :
    ∀ d ∈ text.reverse, (d != c) = true := by
  intro d hd
  simp only [bne_iff_ne, ne_eq]
  rintro rfl
  exact h (List.mem_reverse.1 hd)

/-- What is in front of a line feed has no part in the last line. -/
theorem lastLine_cons {c : Char} {before : List Char} (h : c = '\n' ∨ '\n' ∈ before) :
    (c :: before).reverse.takeWhile (· != '\n') = before.reverse.takeWhile (· != '\n') := by
  rw [List.reverse_cons, List.takeWhile_append]
  split
  · rename_i hlen
    have heq := (List.takeWhile_prefix (· != '\n')).eq_of_length hlen
    have hno : '\n' ∉ before := by
      intro hm
      have hall := List.all_takeWhile (p := (· != '\n')) (l := before.reverse)
      rw [heq, List.all_eq_true] at hall
      exact absurd (hall '\n' (List.mem_reverse.2 hm)) (by decide)
    obtain rfl := h.resolve_right hno
    simpa using heq.symm
  · rfl

/-- At the place behind a text stands what comes behind the text. -/
theorem textBehind_append (before rest : List Char) :
    textBehind (before.count '\n') (before.reverse.takeWhile (· != '\n')).length
      (before ++ rest) = rest := by
  induction before with
  | nil => rfl
  | cons c before ih =>
    by_cases hc : c = '\n'
    · rw [lastLine_cons (.inl hc)]
      subst hc
      rw [List.count_cons_self]
      exact ih
    · have hne : (c != '\n') = true := by simpa using hc
      rw [List.count_cons_of_ne hc]
      cases hn : before.count '\n' with
      | zero =>
        -- no line feed at all: everything takes a column
        have hall := bne_of_not_mem (List.count_eq_zero.1 hn)
        rw [List.reverse_cons, List.takeWhile_append_of_pos hall, List.takeWhile_cons, if_pos hne]
        simp [textBehind]
      | succ n =>
        have hm : '\n' ∈ before := List.count_pos_iff.1 (by omega)
        rw [hn] at ih
        rw [lastLine_cons (.inr hm)]
        simp only [List.cons_append, textBehind, List.dropWhile_cons, hne, if_true] at ih ⊢
        exact ih

theorem Location.textAt_behind (file : String) (before rest : List Char) :
    (Location.behind file before).textAt (before ++ rest) = rest := by
  have hl : ((Location.behind file before).line - 1).toNat = before.count '\n' := by
    simp only [Location.behind, lineBehind]
    omega
  have hc : ((Location.behind file before).column - 1).toNat =
      (before.reverse.takeWhile (· != '\n')).length := by
    simp only [Location.behind, columnBehind]
    omega
  rw [Location.textAt, hl, hc, textBehind_append]

/-- Behind more text one is at a later place. -/
theorem Location.behind_isBefore (file : String) (before : List Char) {more : List Char}
    (h : more ≠ []) :
    (Location.behind file before).IsBefore (Location.behind file (before ++ more)) := by
  by_cases hm : '\n' ∈ more
  · refine .inl ?_
    have := List.count_pos_iff.2 hm
    simp only [Location.behind, lineBehind, List.count_append]
    omega
  · have hall := bne_of_not_mem hm
    have hlen := List.length_pos_iff.2 h
    refine .inr ⟨?_, ?_⟩
    · simp [Location.behind, lineBehind, List.count_eq_zero.2 hm]
    · simp only [Location.behind, columnBehind, List.reverse_append,
        List.takeWhile_append_of_pos hall, List.length_append, List.length_reverse]
      omega

namespace Upcoming

open Scanner

variable {file : String} {answers : List (Option Char)} {remembersEnd : Bool}

theorem mem_standsIn {t : Scanned}
    (h : t ∈ (ofSource file (.ofAnswers answers remembersEnd)).tokens) :
    t.token.StandsIn (Source.ofAnswers answers remembersEnd).text := by
  obtain ⟨c, hc, rfl⟩ := mem_ofAnswers h
  obtain ⟨-, ⟨rest, hrest⟩, hw, htext⟩ := mem_cuts c hc
  show (c.token file).StandsIn _
  have hl : (c.token file).lexeme.text = String.ofList c.word := htext
  constructor
  · rw [hl]
    intro he
    exact hw (by simpa using congrArg String.toList he)
  · rw [hl, String.toList_ofList]
    refine ⟨rest, ?_⟩
    rw [List.nil_append] at hrest
    rw [← hrest, Cut.upTo, List.append_assoc]
    exact (Location.textAt_behind file c.before (c.word ++ rest)).symm

/-- Each token stands behind those before it. -/
theorem ofAnswers_inOrder (file : String) (answers : List (Option Char)) (remembersEnd : Bool) :
    (ofSource file (.ofAnswers answers remembersEnd)).tokens.Pairwise fun s t =>
      s.token.location.IsBefore t.token.location := by
  apply ofAnswers_pairwise
  intro _ c d hc _ hcd
  obtain ⟨more, hmore⟩ := hcd
  have hne : c.word ++ more ≠ [] := by simp [hc]
  have hb := Location.behind_isBefore file c.before hne
  rwa [← List.append_assoc, show c.before ++ c.word ++ more = d.before from hmore] at hb

/-- The end of the input is behind all tokens. -/
theorem isBefore_last {t : Scanned}
    (h : t ∈ (ofSource file (.ofAnswers answers remembersEnd)).tokens) :
    t.token.location.IsBefore
      (ofSource file (.ofAnswers answers remembersEnd)).last.token.location := by
  obtain ⟨c, hc, rfl⟩ := mem_ofAnswers h
  obtain ⟨-, ⟨more, hmore⟩, hw, -⟩ := mem_cuts c hc
  have hne : c.word ++ more ≠ [] := by simp [hw]
  have hb := Location.behind_isBefore file c.before hne
  rw [List.nil_append] at hmore
  rw [← List.append_assoc, show c.before ++ c.word ++ more = _ from hmore] at hb
  rw [(ofAnswers_spec file answers remembersEnd).2]
  exact hb

end Upcoming

end OperatorGrammar
