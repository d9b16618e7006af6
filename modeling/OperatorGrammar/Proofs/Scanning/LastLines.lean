import OperatorGrammar.Proofs.Scanning.Demand

/-!
The lines that are kept. Of what has been read the last line is known as far as it goes and the line
before it as a whole, and no other line is. That is enough for every token: a token is on one of
these two lines when it has just been read. Main statements: `LineWindow.behind_keepsTwoLines`,
`Scanner.Cut.isCovered` and `Scanner.start_keepsTwoLines`.
-/

namespace OperatorGrammar

variable {text front last more : List Char}

/-! ## The lines of a text -/

/-- A text is a single line, or has a last one behind a line feed. -/
theorem lines_cases (text : List Char) :
    '\n' ∉ text ∨ ∃ front last, text = front ++ '\n' :: last ∧ '\n' ∉ last := by
  by_cases h : '\n' ∈ text
  · obtain ⟨last, front, hr, hlast⟩ := List.eq_append_cons_of_mem (List.mem_reverse.2 h)
    refine .inr ⟨front.reverse, last.reverse, ?_, by simpa using hlast⟩
    rw [← text.reverse_reverse, hr]
    simp
  · exact .inl h

theorem lastLine_of_not_mem (h : '\n' ∉ text) : lastLine text = text := by
  show lastLine ([] ++ text) = lastLine [] ++ text
  exact lastLine_append h

theorem lineBehind_append_lineFeed (h : '\n' ∉ last) :
    lineBehind (front ++ '\n' :: last) = lineBehind front + 1 := by
  rw [lineBehind, List.count_append, List.count_cons_self, List.count_eq_zero.2 h]
  rfl

theorem length_splitOn (text : List Char) : (text.splitOn '\n').length = lineBehind text := by
  induction text with
  | nil => rfl
  | cons c text ih =>
    rw [lineBehind] at ih
    rw [List.splitOn_cons_eq_if_modifyHead, lineBehind, List.count_cons]
    split
    · rw [List.length_cons, ih]
      omega
    · rw [List.length_modifyHead, ih, Nat.add_zero]

/-- The line that one is on behind a text is its last one. -/
theorem getElem?_splitOn (text : List Char) :
    (text.splitOn '\n')[lineBehind text - 1]? = some (lastLine text) := by
  rw [← length_splitOn, ← List.getLast?_eq_getElem?]
  rcases lines_cases text with h | ⟨front, last, rfl, h⟩
  · rw [List.splitOn_eq_singleton h, lastLine_of_not_mem h]
    rfl
  · rw [List.splitOn_append_cons_self, List.splitOn_eq_singleton h, lastLine_append_lineFeed,
      lastLine_of_not_mem h, List.getLast?_concat]

namespace LineWindow

/-! ## What is known of the lines -/

/-- The line before stays the same up to the next line feed. -/
theorem previous_behind_append (h : '\n' ∉ more) :
    (behind (text ++ more)).previous = (behind text).previous := by
  induction more using List.reverseRecOn with
  | nil => rw [List.append_nil]
  | append_singleton more c ih =>
    rw [List.mem_append, not_or] at h
    have hc : c ≠ '\n' := by
      rintro rfl
      exact h.2 List.mem_cons_self
    rw [← List.append_assoc, behind_concat, push, if_neg hc, ← ih h.1]
    split <;> rfl

theorem previous_behind_lineFeed (h : '\n' ∉ last) :
    (behind (front ++ '\n' :: last)).previous =
      some (String.ofList (quoted (lastLine front))) := by
  rw [List.append_cons, previous_behind_append h, behind_concat, push, if_pos rfl, behind_current]

/-- Of what has been read, the last line is known as far as it goes, and the line of the whole text
that comes before it; no other line is known. -/
structure KeepsTwoLines (text read : List Char) (w : LineWindow) : Prop where
  last : w.text? (lineBehind read) = some (String.ofList (quoted (lastLine read)))
  previous : 1 < lineBehind read → ∃ line, (text.splitOn '\n')[lineBehind read - 2]? = some line ∧
    w.text? (lineBehind read - 1) = some (String.ofList (quoted line))
  others : ∀ n : Int, n ≠ lineBehind read → (n = lineBehind read - 1 → lineBehind read = 1) →
    w.text? n = none

theorem behind_keepsTwoLines (read more : List Char) :
    KeepsTwoLines (read ++ more) read (behind read) := by
  have hprevious : ∀ n : Int, n = lineBehind read - 1 →
      (behind read).text? n = (behind read).previous := by
    rintro _ rfl
    rw [text?, behind_line, if_neg (by omega), if_pos rfl]
  constructor
  case last => exact text?_behind read
  case previous =>
    intro h
    rcases lines_cases read with hread | ⟨front, last, rfl, hlast⟩
    · rw [lineBehind, List.count_eq_zero.2 hread] at h
      exact absurd h (by decide)
    · refine ⟨lastLine front, ?_, (hprevious _ rfl).trans (previous_behind_lineFeed hlast)⟩
      rw [lineBehind_append_lineFeed hlast, List.append_assoc, List.cons_append,
        List.splitOn_append_cons_self, List.getElem?_append_left]
      · exact getElem?_splitOn front
      · rw [length_splitOn, lineBehind]
        omega
  case others =>
    intro n hn hfirst
    by_cases h : n = lineBehind read - 1
    · rw [hprevious n h]
      rcases lines_cases read with hread | ⟨front, last, rfl, hlast⟩
      · show (behind ([] ++ read)).previous = (behind []).previous
        exact previous_behind_append hread
      · have hone := hfirst h
        rw [lineBehind_append_lineFeed hlast, lineBehind] at hone
        omega
    · rw [text?, behind_line, if_neg hn, if_neg h]

end LineWindow

/-! ## The line of a token -/

/-- A token that has just been read is on the last line of what has been read or on the line before,
and its line is known up to the end of the token. -/
structure Scanned.IsCovered (text : List Char) (t : Scanned) : Prop where
  line : t.token.location.line = lineBehind (text.take t.requests) ∨
    t.token.location.line = lineBehind (text.take t.requests) - 1
  known : ∃ line, t.sourceLine = some line ∧
    quoted (t.token.location.lineUpTo text ++ t.token.lexeme.text.toList) <+: line.toList

namespace Scanner

theorem Cut.isCovered (file : String) {c : Cut} (h : c ∈ cuts [] text) :
    (c.scanned file text).IsCovered text := by
  have hin := mem_cuts c h
  obtain ⟨rest, hrest⟩ := hin.within
  rw [List.nil_append] at hrest
  have hword := lineFeed_not_mem_word h
  constructor
  case line =>
    show (lineBehind c.before : Int) = lineBehind (text.take (c.upTo.length + 1)) ∨
      (lineBehind c.before : Int) = lineBehind (text.take (c.upTo.length + 1)) - 1
    have hline : lineBehind c.before = lineBehind c.upTo := by
      simp [lineBehind, upTo, List.count_eq_zero.2 hword]
    rw [← hrest, List.take_length_add_append, hline]
    -- one character further there is at most one more line feed
    have hle : (rest.take 1).count '\n' ≤ 1 :=
      Nat.le_trans List.count_le_length (List.length_take_le 1 rest)
    simp only [lineBehind, List.count_append]
    omega
  case known =>
    refine ⟨_, c.sourceLine_scanned file h, ?_⟩
    have hplace : (c.token file).location.lineUpTo text = lastLine c.before := by
      rw [← hrest, upTo, List.append_assoc]
      exact Location.lineUpTo_behind file c.before (c.word ++ rest)
    show quoted ((c.token file).location.lineUpTo text ++ (lexemeOf c.word).text.toList) <+: _
    rw [hplace, hin.text, String.toList_ofList, String.toList_ofList, line]
    exact ⟨_, (quoted_append _ _).symm⟩

theorem isCovered_ending (file : String) (text : List Char) :
    (ending file text).IsCovered text := by
  have hread : text.take (text.length + 1) = text := List.take_of_length_le (Nat.le_succ _)
  constructor
  case line =>
    show (lineBehind text : Int) = lineBehind (text.take (text.length + 1)) ∨ _
    rw [hread]
    exact .inl rfl
  case known =>
    refine ⟨_, sourceLine_ending file text, ?_⟩
    have hplace : (Location.behind file text).lineUpTo text = lastLine text := by
      have h := Location.lineUpTo_behind file text []
      rwa [List.append_nil] at h
    have hquoted : quoted ((Location.behind file text).lineUpTo text ++ []) =
        (String.ofList (quoted (lastLine text))).toList := by
      rw [hplace, List.append_nil, String.toList_ofList]
    exact ⟨[], (List.append_nil _).trans hquoted⟩

/-- What is known of the lines is what the characters say that have been asked for. -/
theorem window_skipTokens (file text : String) (n : Nat) :
    ((start file (.ofString text)).skipTokens n).window =
      .behind (text.toList.take ((start file (.ofString text)).skipTokens n).source.requests) := by
  cases n with
  | zero => rfl
  | succ n =>
    rw [skipTokens_succ]
    show (scan _).window = .behind (text.toList.take (scan _).requests)
    rw [ofString_scan_skipTokens]
    cases (cuts [] text.toList)[n]? with
    | none => exact congrArg LineWindow.behind (List.take_of_length_le (Nat.le_succ _)).symm
    | some c => rfl

/-- At any time the last line of what has been read is known as far as it goes, the line before it as
a whole, and no other line; and the next token, when it has been read, is on one of these two, which
is known up to the end of the token. -/
theorem start_keepsTwoLines (file text : String) (n : Nat) :
    let s := (start file (.ofString text)).skipTokens n
    s.window.KeepsTwoLines text.toList (text.toList.take s.source.requests) ∧
      s.scan.IsCovered text.toList := by
  intro s
  constructor
  · have hlines := LineWindow.behind_keepsTwoLines (text.toList.take s.source.requests)
      (text.toList.drop s.source.requests)
    rwa [List.take_append_drop, ← window_skipTokens file text n] at hlines
  · rw [ofString_scan_skipTokens]
    cases hc : (cuts [] text.toList)[n]? with
    | none => exact isCovered_ending file text.toList
    | some c => exact c.isCovered file (List.mem_of_getElem? hc)

end Scanner

end OperatorGrammar
