import Mathlib.Data.List.Induction
import OperatorGrammar.Upcoming

/-!
Scanning, said over the text as a whole. A scanner stands in a text: `before` lies behind it, and
the first character of `rest` is the one it holds back. The tokens of a text are the words that
`cuts` finds in it, each at the place behind all that comes before it, and what is known of the
lines when a token has been scanned is what the text up to there says of them. Main statements:
`Scanner.next_at` and `Upcoming.ofAnswers_spec`.
-/

namespace OperatorGrammar

/-- The line that one is on behind a text. -/
def lineBehind (text : List Char) : Nat := 1 + text.count '\n'

/-- The column that one is in behind a text. Every character behind the last line feed takes
one. -/
def columnBehind (text : List Char) : Nat := 1 + (text.reverse.takeWhile (· != '\n')).length

def Location.behind (file : String) (text : List Char) : Location :=
  ⟨file, lineBehind text, columnBehind text⟩

namespace Source

/-- The text of a source: its characters up to the first answer of nothing. -/
def text (s : Source) : List Char := (s.answers.takeWhile Option.isSome).filterMap id

theorem text_ofList (text : List Char) : (ofList text).text = text := by
  have h : (text.map some).takeWhile Option.isSome = text.map some := by
    induction text with
    | nil => rfl
    | cons c cs ih => simp [ih]
  simp [ofList, ofAnswers, Source.text, h]

theorem text_ofString (text : String) : (ofString text).text = text.toList :=
  text_ofList text.toList

theorem read_of_live {s : Source} (h : s.ended = false) :
    s.read.1 = s.text.head? ∧ s.read.2.requests = s.requests + 1 ∧
      (s.text ≠ [] → s.read.2.ended = false ∧ s.read.2.text = s.text.tail) := by
  rcases s with ⟨_ | ⟨_ | c, rest⟩, remembersEnd, ended, requests⟩
  · simp_all [read, text]
  · simp_all [read, text]
  · simp_all [read, text]

end Source

namespace LineWindow

/-- What is known of the lines when a text has been read. -/
def behind (text : List Char) : LineWindow := text.foldl push start

@[simp] theorem behind_concat (text : List Char) (c : Char) :
    behind (text ++ [c]) = (behind text).push c := by
  simp [behind]

theorem behind_line (text : List Char) : (behind text).line = lineBehind text := by
  induction text using List.reverseRecOn with
  | nil => rfl
  | append_singleton text c ih =>
    by_cases hn : c = '\n'
    · simp [push, hn, ih, lineBehind, Nat.add_assoc]
    · by_cases hr : c = '\r'
      · simp [push, hr, ih, lineBehind]
      · simp [push, hn, hr, ih, lineBehind]

theorem behind_column (text : List Char) : (behind text).column = columnBehind text := by
  induction text using List.reverseRecOn with
  | nil => rfl
  | append_singleton text c ih =>
    by_cases hn : c = '\n'
    · simp [push, hn, columnBehind]
    · by_cases hr : c = '\r'
      · simp [push, hr, ih, columnBehind, Nat.add_assoc]
      · simp [push, hn, hr, ih, columnBehind, Nat.add_assoc]

end LineWindow

namespace Scanner

/-! ## A text, cut into words -/

/-- The blanks and comments at the front of a text. -/
def layoutOf (inComment : Bool) : List Char → List Char
  | [] => []
  | c :: cs =>
    if inComment then c :: layoutOf (!endsComment c) cs
    else if c = '#' then c :: layoutOf true cs
    else if isBlank c then c :: layoutOf false cs
    else []

/-- The word at the front of a text. -/
def wordOf : List Char → List Char
  | [] => []
  | c :: cs =>
    if isLetter c then (c :: cs).takeWhile isLetterOrDigit
    else if isDigitOrPoint c then (c :: cs).takeWhile isDigitOrPoint
    else [c]

def lexemeOf : List Char → Lexeme
  | [] => .endOfInput
  | c :: cs =>
    if isLetter c then .ofWord (String.ofList (c :: cs))
    else if isDigitOrPoint c then .number (String.ofList (c :: cs))
    else .char c

/-- A word of a text, with all that comes before it. -/
structure Cut where
  before : List Char
  word : List Char

namespace Cut

def token (file : String) (c : Cut) : Token := ⟨lexemeOf c.word, .behind file c.before⟩

/-- The text up to the end of the word. -/
def upTo (c : Cut) : List Char := c.before ++ c.word

/-- The word as a token that has just been scanned: the text has been read up to the word's end and
one character more. -/
def scanned (file : String) (text : List Char) (c : Cut) : Scanned :=
  ⟨c.token file, .behind (text.take (c.upTo.length + 1)), c.upTo.length + 1⟩

end Cut

/-- The end of the input behind a text, when it has just been scanned. -/
def ending (file : String) (text : List Char) : Scanned :=
  ⟨⟨.endOfInput, .behind file text⟩, .behind text, text.length + 1⟩

theorem isLetterOrDigit_of_isLetter {c : Char} (h : isLetter c = true) :
    isLetterOrDigit c = true := by
  simpa [isLetter, isLetterOrDigit, Char.isAlphanum] using .inl h

theorem wordOf_ne_nil {text : List Char} (h : text ≠ []) : wordOf text ≠ [] := by
  cases text with
  | nil => exact absurd rfl h
  | cons c cs =>
    simp only [wordOf]
    split
    · rename_i hl
      simp [isLetterOrDigit_of_isLetter hl]
    · split
      · rename_i hd
        simp [hd]
      · simp

theorem layoutOf_append_drop (inComment : Bool) (text : List Char) :
    layoutOf inComment text ++ text.drop (layoutOf inComment text).length = text := by
  induction text generalizing inComment with
  | nil => rfl
  | cons c cs ih =>
    simp only [layoutOf]
    split
    · simp [ih]
    · split
      · simp [ih]
      · split
        · simp [ih]
        · rfl

theorem wordOf_append_drop (text : List Char) :
    wordOf text ++ text.drop (wordOf text).length = text := by
  have run : ∀ p : Char → Bool, text.takeWhile p ++ text.drop (text.takeWhile p).length = text :=
    fun p => List.prefix_iff_eq_append.1 (List.takeWhile_prefix p)
  cases text with
  | nil => rfl
  | cons c cs =>
    simp only [wordOf]
    split
    · exact run _
    · split
      · exact run _
      · rfl

/-- A text is its first layout, its first word and what comes behind them. -/
theorem layoutOf_append_wordOf (before rest : List Char) :
    let layout := layoutOf false rest
    let text := rest.drop layout.length
    before ++ layout ++ wordOf text ++ text.drop (wordOf text).length = before ++ rest := by
  intro layout text
  rw [List.append_assoc, wordOf_append_drop, List.append_assoc, layoutOf_append_drop]

/-- The words of `rest`, in order, where `before` comes before it. -/
def cuts (before rest : List Char) : List Cut :=
  let layout := layoutOf false rest
  let text := rest.drop layout.length
  if text = [] then []
  else
    let word := wordOf text
    ⟨before ++ layout, word⟩ :: cuts (before ++ layout ++ word) (text.drop word.length)
termination_by rest.length
decreasing_by
  rename_i h
  have hw := List.length_pos_iff.2 (wordOf_ne_nil h)
  have ht := List.length_pos_iff.2 h
  simp only [layout, text, List.length_drop] at *
  omega

/-! ## Where a scanner stands -/

/-- A scanner that stands behind `before` and in front of `rest`, whose first character it holds
back. -/
structure At (s : Scanner) (before rest : List Char) : Prop where
  held : s.held = rest.head?
  live : rest ≠ [] → s.source.ended = false ∧ s.source.text = rest.tail
  line : s.line = lineBehind before
  column : s.column = columnBehind before
  window : s.window = .behind (before ++ rest.take 1)
  requests : s.source.requests = before.length + 1

variable {s : Scanner} {before rest : List Char} {c : Char}

theorem At.read (h : s.At before (c :: rest)) : s.read.At (before ++ [c]) rest := by
  obtain ⟨hl, ht⟩ := h.live (List.cons_ne_nil c rest)
  obtain ⟨ha, hr, hn⟩ := Source.read_of_live hl
  have hh : s.held = some c := h.held
  rw [ht, List.tail_cons] at ha hn
  have hw : s.window = .behind (before ++ [c]) := h.window
  simp only [Scanner.read, hh]
  refine ⟨ha, hn, ?_, ?_, ?_, ?_⟩
  · rw [hw, LineWindow.behind_line]
  · rw [hw, LineWindow.behind_column]
  · simp only [ha, hw]
    cases rest with
    | nil => simp
    | cons d rest => simp [LineWindow.behind]
  · simp [hr, h.requests]

@[simp] theorem read_file (s : Scanner) : s.read.file = s.file := by
  unfold Scanner.read
  split <;> rfl

/-- The blank that is held back at the start stands for no character. -/
theorem start_read_at (file : String) (answers : List (Option Char)) (remembersEnd : Bool) :
    (start file (.ofAnswers answers remembersEnd)).read.At []
      (Source.ofAnswers answers remembersEnd).text := by
  obtain ⟨ha, hr, hn⟩ := Source.read_of_live (s := .ofAnswers answers remembersEnd) rfl
  simp only [Scanner.read, start]
  refine ⟨ha, hn, rfl, rfl, ?_, hr⟩
  simp only [ha]
  cases (Source.ofAnswers answers remembersEnd).text <;> rfl

theorem skipLayout_at (inComment : Bool) (h : s.At before rest) :
    (s.skipLayout inComment).At (before ++ layoutOf inComment rest)
      (rest.drop (layoutOf inComment rest).length) ∧
    (s.skipLayout inComment).file = s.file := by
  induction rest generalizing s before inComment with
  | nil =>
    have hh : s.held = none := h.held
    rw [skipLayout]
    split
    · simpa [layoutOf] using h
    · simp_all
  | cons c rest ih =>
    have hh : s.held = some c := h.held
    rw [skipLayout]
    split
    · simp_all
    · rename_i d hd
      obtain rfl : c = d := by simpa [hh] using hd
      have next := fun inComment => ih (s := s.read) inComment h.read
      simp only [read_file, List.append_assoc, List.cons_append, List.nil_append] at next
      simp only [layoutOf]
      split
      · exact next _
      · split
        · exact next _
        · split
          · exact next _
          · simpa using h

theorem takeRun_at (p : Char → Bool) (h : s.At before rest) :
    (s.takeRun p).1 = rest.takeWhile p ∧
      (s.takeRun p).2.At (before ++ rest.takeWhile p) (rest.drop (rest.takeWhile p).length) ∧
      (s.takeRun p).2.file = s.file := by
  induction rest generalizing s before with
  | nil =>
    have hh : s.held = none := h.held
    rw [takeRun]
    split
    · simpa using h
    · simp_all
  | cons c rest ih =>
    have hh : s.held = some c := h.held
    rw [takeRun]
    split
    · simp_all
    · rename_i d hd
      obtain rfl : c = d := by simpa [hh] using hd
      by_cases hp : p c = true
      · have next := ih h.read
        simpa [hp] using next
      · simpa [hp] using h

theorem lexeme_at (h : s.At before rest) :
    s.lexeme.1 = lexemeOf (wordOf rest) ∧
      s.lexeme.2.At (before ++ wordOf rest) (rest.drop (wordOf rest).length) ∧
      s.lexeme.2.file = s.file := by
  cases rest with
  | nil =>
    have hh : s.held = none := h.held
    simpa [lexeme, hh, wordOf, lexemeOf] using h
  | cons c rest =>
    have hh : s.held = some c := h.held
    simp only [lexeme, hh, wordOf]
    by_cases hl : isLetter c = true
    · obtain ⟨hr, ha⟩ := takeRun_at isLetterOrDigit h
      have hw : (c :: rest).takeWhile isLetterOrDigit = c :: rest.takeWhile isLetterOrDigit := by
        simp [isLetterOrDigit_of_isLetter hl]
      simp only [hl, if_true]
      exact ⟨by simp [hr, hw, lexemeOf, hl], ha⟩
    · by_cases hd : isDigitOrPoint c = true
      · obtain ⟨hr, ha⟩ := takeRun_at isDigitOrPoint h
        have hw : (c :: rest).takeWhile isDigitOrPoint = c :: rest.takeWhile isDigitOrPoint := by
          simp [hd]
        simp only [hl, hd, Bool.false_eq_true, if_false, if_true]
        exact ⟨by simp [hr, hw, lexemeOf, hl, hd], ha⟩
      · simp only [hl, hd, Bool.false_eq_true, if_false]
        exact ⟨by simp [lexemeOf, hl, hd], h.read, s.read_file⟩

/-- The next token is the next word of the text. -/
theorem next_at (h : s.At before rest) :
    let layout := layoutOf false rest
    let text := rest.drop layout.length
    let word := wordOf text
    s.next.1 = ⟨lexemeOf word, .behind s.file (before ++ layout)⟩ ∧
      s.next.2.At (before ++ layout ++ word) (text.drop word.length) ∧ s.next.2.file = s.file := by
  intro layout text word
  obtain ⟨ha, hf⟩ := skipLayout_at false h
  obtain ⟨hl, hn, hg⟩ := lexeme_at ha
  refine ⟨?_, hn, hg.trans hf⟩
  simp only [next, hl, Location.behind, hf, ha.line, ha.column]
  rfl

/-- The next token, as it is when it has just been read. -/
def scan (s : Scanner) : Scanned := s.next.2.record s.next.1

/-- What is known in a place is what the text says up to there and one character further. -/
theorem At.record_eq (h : s.At before rest) (t : Token) :
    s.record t = ⟨t, .behind ((before ++ rest).take (before.length + 1)), before.length + 1⟩ := by
  rw [List.take_length_add_append, record, h.window, h.requests]

/-- The next token is the next word, scanned where it stands. -/
theorem scan_at (h : s.At before rest) :
    let layout := layoutOf false rest
    let text := rest.drop layout.length
    let word := wordOf text
    s.scan = Cut.scanned s.file (before ++ rest) ⟨before ++ layout, word⟩ ∧
      s.next.2.At (before ++ layout ++ word) (text.drop word.length) := by
  intro layout text word
  obtain ⟨ht, ha, -⟩ := next_at h
  have hall : before ++ layout ++ word ++ text.drop word.length = before ++ rest :=
    layoutOf_append_wordOf before rest
  refine ⟨?_, ha⟩
  rw [scan, ha.record_eq, ht, hall]
  rfl

/-- In front of layout only, it is the end of the input. -/
theorem scan_of_layout (h : s.At before rest)
    (hnil : rest.drop (layoutOf false rest).length = []) :
    s.scan = ending s.file (before ++ rest) ∧ s.next.2.At (before ++ rest) [] := by
  obtain ⟨hscan, ha⟩ := scan_at h
  have hall := layoutOf_append_drop false rest
  rw [hnil, List.append_nil] at hall
  rw [hnil, hall] at hscan ha
  simp only [wordOf, List.append_nil, List.drop_nil] at hscan ha
  refine ⟨hscan.trans ?_, ha⟩
  simp only [Cut.scanned, Cut.upTo, List.append_nil, List.take_of_length_le (Nat.le_succ _)]
  rfl

theorem start_next (file : String) (source : Source) :
    (start file source).next = (start file source).read.next := by
  have h : (start file source).skipLayout false = (start file source).read.skipLayout false := by
    rw [skipLayout.eq_def]
    rfl
  simp only [next, h]

theorem lexemeOf_ne_endOfInput {word : List Char} (h : word ≠ []) :
    lexemeOf word ≠ .endOfInput := by
  cases word with
  | nil => exact absurd rfl h
  | cons c cs =>
    simp only [lexemeOf, Lexeme.ofWord]
    split
    · split
      · exact nofun
      · split <;> exact nofun
    · split <;> exact nofun

/-! ## What the words of a text have in common -/

/-- A lexeme has the characters of its word. -/
theorem text_lexemeOf_wordOf (text : List Char) :
    (lexemeOf (wordOf text)).text = String.ofList (wordOf text) := by
  have ofWord : ∀ w, (Lexeme.ofWord w).text = w := by
    intro w
    unfold Lexeme.ofWord
    split
    · rename_i h
      rw [h]
      rfl
    · split
      · rename_i h
        rw [h]
        rfl
      · rfl
  cases text with
  | nil => rfl
  | cons c cs =>
    by_cases hl : isLetter c = true
    · simp [wordOf, lexemeOf, hl, isLetterOrDigit_of_isLetter hl, ofWord]
    · by_cases hd : isDigitOrPoint c = true
      · simp [wordOf, lexemeOf, hl, hd, Lexeme.text]
      · simp [wordOf, lexemeOf, hl, hd, Lexeme.text]

/-- A word of `text` that lies behind `before`. -/
structure Cut.IsIn (before text : List Char) (c : Cut) : Prop where
  behind : before <+: c.before
  within : c.upTo <+: text
  nonempty : c.word ≠ []
  text : (lexemeOf c.word).text = String.ofList c.word

theorem mem_cuts {before rest : List Char} :
    ∀ c ∈ cuts before rest, c.IsIn before (before ++ rest) := by
  fun_induction cuts before rest with
  | case1 => simp
  | case2 before rest layout text h word ih =>
    have hall : before ++ layout ++ word ++ text.drop word.length = before ++ rest :=
      layoutOf_append_wordOf before rest
    intro c hc
    rcases List.mem_cons.1 hc with rfl | hc
    · exact ⟨List.prefix_append _ _, ⟨_, hall⟩, wordOf_ne_nil h, text_lexemeOf_wordOf text⟩
    · obtain ⟨hbehind, hwithin, hne, ht⟩ := ih c hc
      refine ⟨List.IsPrefix.trans ?_ hbehind, hall ▸ hwithin, hne, ht⟩
      rw [List.append_assoc]
      exact List.prefix_append _ _

/-- Each word lies behind those before it. -/
theorem cuts_pairwise (before rest : List Char) :
    (cuts before rest).Pairwise fun c d => c.upTo <+: d.before := by
  fun_induction cuts before rest with
  | case1 => exact .nil
  | case2 before rest layout text h word ih =>
    exact List.pairwise_cons.2 ⟨fun d hd => (mem_cuts d hd).behind, ih⟩

end Scanner

namespace Upcoming

open Scanner

/-- What a scanner reads are the words of the text that it stands in. -/
theorem scanOnto_at {s : Scanner} {before rest : List Char} (h : s.At before rest) :
    (scanOnto [] s).tokens = (cuts before rest).map (·.scanned s.file (before ++ rest)) ∧
      (scanOnto [] s).last = ending s.file (before ++ rest) := by
  fun_induction cuts before rest generalizing s with
  | case1 before rest layout text =>
    rename_i hnil
    obtain ⟨hscan, -⟩ := scan_of_layout h hnil
    have he : s.next.1.lexeme = .endOfInput := congrArg (·.token.lexeme) hscan
    rw [scanOnto, dif_pos he]
    exact ⟨rfl, hscan⟩
  | case2 before rest layout text hne word =>
    rename_i ih
    obtain ⟨hscan, ha⟩ := scan_at h
    have hword : s.next.1.lexeme = lexemeOf word := congrArg (·.token.lexeme) hscan
    have he : s.next.1.lexeme ≠ .endOfInput := by
      rw [hword]
      exact lexemeOf_ne_endOfInput (wordOf_ne_nil hne)
    obtain ⟨i1, i2⟩ := ih ha
    have hall : before ++ layout ++ word ++ text.drop word.length = before ++ rest :=
      layoutOf_append_wordOf before rest
    rw [hall, (next_at h).2.2] at i1 i2
    rw [scanOnto, dif_neg he, scanOnto_tokens]
    refine ⟨?_, i2⟩
    rw [withTokens_tokens, i1, List.map_cons, ← hscan]
    rfl

/-- The tokens of a source are the words of its text. When a token has been read, so have the
characters up to its end and one more; the end of the input takes one request behind the text. -/
theorem ofAnswers_spec (file : String) (answers : List (Option Char)) (remembersEnd : Bool) :
    let source := Source.ofAnswers answers remembersEnd
    (ofSource file source).tokens = (cuts [] source.text).map (·.scanned file source.text) ∧
      (ofSource file source).last = ending file source.text := by
  intro source
  have hs : ofSource file source = scanOnto [] (start file source).read := by
    rw [ofSource, ofScanner, scanOnto.eq_def, scanOnto.eq_def [] (start file source).read,
      start_next]
  have h := scanOnto_at (start_read_at file answers remembersEnd)
  rw [read_file] at h
  rw [hs]
  exact h

theorem ofString_tokens (file text : String) :
    (ofSource file (.ofString text)).tokens =
      (cuts [] text.toList).map (·.scanned file text.toList) := by
  have h := (ofAnswers_spec file (text.toList.map some) false).1
  rwa [show Source.ofAnswers (text.toList.map some) false = .ofString text from rfl,
    Source.text_ofString] at h

theorem ofString_last (file text : String) :
    (ofSource file (.ofString text)).last = ending file text.toList := by
  have h := (ofAnswers_spec file (text.toList.map some) false).2
  rwa [show Source.ofAnswers (text.toList.map some) false = .ofString text from rfl,
    Source.text_ofString] at h

theorem mem_ofAnswers {file : String} {answers : List (Option Char)} {remembersEnd : Bool}
    {t : Scanned} (h : t ∈ (ofSource file (.ofAnswers answers remembersEnd)).tokens) :
    ∃ c ∈ cuts [] (Source.ofAnswers answers remembersEnd).text,
      t = c.scanned file (Source.ofAnswers answers remembersEnd).text := by
  rw [(ofAnswers_spec file answers remembersEnd).1] at h
  obtain ⟨c, hc, rfl⟩ := List.mem_map.1 h
  exact ⟨c, hc, rfl⟩

/-- What holds of each two words of a text holds of their tokens. -/
theorem ofAnswers_pairwise {file : String} {answers : List (Option Char)} {remembersEnd : Bool}
    {P : Scanned → Scanned → Prop}
    (h : ∀ (text : List Char) (c d : Cut), c.word ≠ [] → d.word ≠ [] → c.upTo <+: d.before →
      P (c.scanned file text) (d.scanned file text)) :
    (ofSource file (.ofAnswers answers remembersEnd)).tokens.Pairwise P := by
  rw [(ofAnswers_spec file answers remembersEnd).1, List.pairwise_map]
  apply (cuts_pairwise [] _).imp_of_mem
  intro c d hc hd hcd
  exact h _ c d (mem_cuts c hc).nonempty (mem_cuts d hd).nonempty hcd

/-- Only the end of the input is the end of the input, and each token asks for more characters
than the one before. -/
structure Ordered (u : Upcoming) : Prop where
  ne_endOfInput : ∀ t ∈ u.tokens, t.token.lexeme ≠ .endOfInput
  increasing : u.tokens.Pairwise fun s t => s.requests < t.requests
  bounded : ∀ t ∈ u.tokens, t.requests ≤ u.last.requests

theorem ofAnswers_ordered (file : String) (answers : List (Option Char)) (remembersEnd : Bool) :
    (ofSource file (.ofAnswers answers remembersEnd)).Ordered := by
  obtain ⟨-, hl⟩ := ofAnswers_spec file answers remembersEnd
  constructor
  case ne_endOfInput =>
    intro t hin
    obtain ⟨c, hc, rfl⟩ := mem_ofAnswers hin
    exact lexemeOf_ne_endOfInput (mem_cuts c hc).nonempty
  case increasing =>
    apply ofAnswers_pairwise
    intro _ c d _ hd hcd
    have hle := hcd.length_le
    have hpos := List.length_pos_iff.2 hd
    simp only [Cut.scanned, Cut.upTo, List.length_append] at *
    omega
  case bounded =>
    intro t hin
    obtain ⟨c, hc, rfl⟩ := mem_ofAnswers hin
    have hle := (mem_cuts c hc).within.length_le
    simp only [hl, Cut.scanned, ending, List.nil_append] at *
    omega

theorem ofString_ordered (file text : String) : (ofSource file (.ofString text)).Ordered :=
  ofAnswers_ordered file (text.toList.map some) false

end Upcoming

end OperatorGrammar
