import OperatorGrammar.Proofs.Scanning.Lossless
import OperatorGrammar.Proofs.Scanning.Place

/-!
The lines that are quoted. When a token has been scanned, its line is known up to the end of the
token, and one character further unless the line ends there. A carriage return takes a column, but
a quoted line leaves it out. Main statements: `Scanner.Cut.sourceLine_scanned`,
`Scanner.sourceLine_ending` and `Location.lineUpTo_behind`.
-/

namespace OperatorGrammar

/-- The characters behind the last line feed. -/
def lastLine (text : List Char) : List Char := (text.reverse.takeWhile (· != '\n')).reverse

/-- A line as it is quoted. -/
def quoted (line : List Char) : List Char := line.filter (· != '\r')

@[simp] theorem quoted_append (line more : List Char) :
    quoted (line ++ more) = quoted line ++ quoted more :=
  List.filter_append ..

theorem quoted_cons {c : Char} (h : c ≠ '\r') (line : List Char) :
    quoted (c :: line) = c :: quoted line :=
  List.filter_cons_of_pos (by simpa using h)

/-- The carriage returns of a line are what it has more than its quotation. -/
theorem length_quoted_add_count (line : List Char) :
    (quoted line).length + line.count '\r' = line.length := by
  induction line with
  | nil => rfl
  | cons c cs ih =>
    by_cases hc : c = '\r'
    · subst hc
      simp [quoted] at ih ⊢
      omega
    · simp [quoted, hc] at ih ⊢
      omega

@[simp] theorem lastLine_concat_lineFeed (text : List Char) : lastLine (text ++ ['\n']) = [] := by
  simp [lastLine]

theorem lastLine_append {text more : List Char} (h : '\n' ∉ more) :
    lastLine (text ++ more) = lastLine text ++ more := by
  rw [lastLine, List.reverse_append, List.takeWhile_append_of_pos (bne_of_not_mem h)]
  simp [lastLine]

/-- What comes before a line feed has no part in the last line. -/
theorem lastLine_append_lineFeed (text more : List Char) :
    lastLine (text ++ '\n' :: more) = lastLine more := by
  induction text with
  | nil =>
    rw [List.nil_append, lastLine, lastLine_cons (.inl rfl), lastLine]
  | cons c text ih =>
    rw [List.cons_append, lastLine, lastLine_cons (.inr (by simp)), ← lastLine, ih]

theorem columnBehind_eq (text : List Char) : columnBehind text = 1 + (lastLine text).length := by
  simp [columnBehind, lastLine]

/-- The last line starts the text or stands behind a line feed. -/
theorem exists_append_lastLine (text : List Char) :
    ∃ lines, text = lines ++ lastLine text ∧ lastLine lines = [] ∧
      lines.count '\n' = text.count '\n' := by
  induction text using List.reverseRecOn with
  | nil => exact ⟨[], rfl, rfl, rfl⟩
  | append_singleton text c ih =>
    by_cases hc : c = '\n'
    · subst hc
      exact ⟨text ++ ['\n'], by simp, by simp, rfl⟩
    · obtain ⟨lines, ht, hl, hn⟩ := ih
      have hmem : '\n' ∉ [c] := by simpa using Ne.symm hc
      refine ⟨lines, ?_, hl, ?_⟩
      · rw [lastLine_append hmem, ← List.append_assoc, ← ht]
      · rw [hn, List.count_append, List.count_eq_zero.2 hmem, Nat.add_zero]

/-- The line that a place is on, up to the place. -/
def Location.lineUpTo (l : Location) (text : List Char) : List Char :=
  ({ l with column := 1 }.textAt text).take (l.column - 1).toNat

theorem Location.lineUpTo_behind (file : String) (before rest : List Char) :
    (Location.behind file before).lineUpTo (before ++ rest) = lastLine before := by
  obtain ⟨lines, ht, hl, hn⟩ := exists_append_lastLine before
  have hstart : { Location.behind file before with column := 1 } = .behind file lines := by
    simp only [Location.behind, lineBehind, columnBehind_eq, hl, hn]
    rfl
  have hcolumn : ((Location.behind file before).column - 1).toNat = (lastLine before).length := by
    simp only [Location.behind, columnBehind_eq]
    omega
  have htext : before ++ rest = lines ++ (lastLine before ++ rest) := by
    rw [← List.append_assoc, ← ht]
  rw [lineUpTo, hstart, hcolumn, htext, textAt_behind, List.take_left]

namespace LineWindow

theorem behind_current (text : List Char) :
    (behind text).current.reverse = quoted (lastLine text) := by
  induction text using List.reverseRecOn with
  | nil => rfl
  | append_singleton text c ih =>
    by_cases hn : c = '\n'
    · simp [push, hn, quoted]
    · have hmem : '\n' ∉ [c] := by simpa using Ne.symm hn
      rw [behind_concat, lastLine_append hmem, quoted_append, ← ih]
      by_cases hr : c = '\r'
      · simp [push, hr, quoted]
      · simp [push, hn, hr, quoted]

/-- The line that is being read is known as far as it has been read. -/
theorem text?_behind (text : List Char) :
    (behind text).text? (lineBehind text) = some (String.ofList (quoted (lastLine text))) := by
  rw [text?, behind_line, if_pos rfl, behind_current]

/-- Behind its line feed, the whole line is known. -/
theorem text?_behind_lineFeed (text : List Char) :
    (behind (text ++ ['\n'])).text? (lineBehind text) =
      some (String.ofList (quoted (lastLine text))) := by
  have hline : (behind (text ++ ['\n'])).line = lineBehind text + 1 := by
    rw [behind_line, lineBehind, List.count_append]
    rfl
  rw [text?, if_neg, if_pos]
  · rw [behind_concat, push, if_pos rfl, behind_current]
  · rw [hline]
    omega
  · rw [hline]
    omega

end LineWindow

namespace Scanner

variable {text : List Char} {c : Cut}

theorem not_isBlank_of_mem_cuts (h : c ∈ cuts [] text) : ∀ d ∈ c.word, isBlank d = false :=
  (munches_of_mem_cuts c h).not_isBlank

/-- A line break is a blank, so it is in no word. -/
theorem lineFeed_not_mem_word (h : c ∈ cuts [] text) : '\n' ∉ c.word := by
  intro hm
  exact absurd (not_isBlank_of_mem_cuts h '\n' hm) (by decide)

namespace Cut

/-- The line of a word as far as it is known when the word has been scanned. -/
def line (text : List Char) (c : Cut) : List Char :=
  lastLine c.before ++ c.word ++ ((text.drop c.upTo.length).take 1).filter (· != '\n')

theorem sourceLine_scanned (file : String) (h : c ∈ cuts [] text) :
    (c.scanned file text).sourceLine = some (String.ofList (quoted (c.line text))) := by
  obtain ⟨rest, hrest⟩ := (mem_cuts c h).within
  have hword := lineFeed_not_mem_word h
  -- the line that the word ends on is the line that it starts on
  have hline : lineBehind c.before = lineBehind c.upTo := by
    simp [lineBehind, upTo, List.count_eq_zero.2 hword]
  have hlast : lastLine c.upTo = lastLine c.before ++ c.word := lastLine_append hword
  show (LineWindow.behind _).text? (lineBehind c.before) = _
  rw [List.nil_append] at hrest
  rw [line, ← hlast, hline, ← hrest, List.take_length_add_append, List.drop_left]
  cases rest with
  | nil => simpa using LineWindow.text?_behind c.upTo
  | cons d rest =>
    by_cases hd : d = '\n'
    · subst hd
      simpa using LineWindow.text?_behind_lineFeed c.upTo
    · have hmem : '\n' ∉ [d] := by simpa using Ne.symm hd
      have hnext : lineBehind c.upTo = lineBehind (c.upTo ++ [d]) := by
        simp [lineBehind, List.count_eq_zero.2 hmem]
      rw [hnext]
      simpa [hd, lastLine_append hmem] using LineWindow.text?_behind (c.upTo ++ [d])

end Cut

theorem sourceLine_ending (file : String) (text : List Char) :
    (ending file text).sourceLine = some (String.ofList (quoted (lastLine text))) :=
  LineWindow.text?_behind text

end Scanner

end OperatorGrammar
