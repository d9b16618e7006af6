import OperatorGrammar.Source
import OperatorGrammar.Token

/-!
Reading tokens off a source. The scanner holds back one character, which it has read and not yet
put into a token; it asks for the next only when that one is settled. Besides, it keeps the line
that is being read and the one before, for diagnostics. Main statements: `read_pending`, every
request made by a scanner that is not at the end brings it nearer to the end, and
`next_pending_lt`, so does every token but the last.
-/

namespace OperatorGrammar

/-- The last two lines of what has been read, and the place of the next character. -/
structure LineWindow where
  line : Nat
  column : Nat
  /-- The characters of the line that is being read, the latest first. -/
  current : List Char
  previous : Option String
deriving Repr

namespace LineWindow

def start : LineWindow := ⟨1, 1, [], none⟩

/-- Takes in the next character. A line feed ends the line; a carriage return takes a column but
is not part of the line's text. -/
def push (w : LineWindow) (c : Char) : LineWindow :=
  if c = '\n' then ⟨w.line + 1, 1, [], some (String.ofList w.current.reverse)⟩
  else if c = '\r' then { w with column := w.column + 1 }
  else { w with column := w.column + 1, current := c :: w.current }

/-- The text of a line, of which only the last two are known. -/
def text? (w : LineWindow) (line : Int) : Option String :=
  if line = w.line then some (String.ofList w.current.reverse)
  else if line = w.line - 1 then w.previous
  else none

end LineWindow

/-- A token with what was known when it had just been read. -/
structure Scanned where
  token : Token
  window : LineWindow
  /-- How many characters had been asked for. -/
  requests : Nat
deriving Repr

namespace Scanned

/-- What is known of the line that the token is on. -/
def sourceLine (t : Scanned) : Option String := t.window.text? t.token.location.line

end Scanned

structure Scanner where
  file : String
  source : Source
  /-- The character that is held back; none is left at the end of the input. -/
  held : Option Char
  /-- The place of the character that is held back. -/
  line : Nat
  column : Nat
  window : LineWindow
deriving Repr

namespace Scanner

/-- Nothing has been read yet: a blank is held back in place of a character. -/
def start (file : String) (source : Source) : Scanner :=
  ⟨file, source, some ' ', 1, 0, .start⟩

/-- Lets go of the character that is held back and asks for the next. At the end of the input
nothing is asked. -/
def read (s : Scanner) : Scanner :=
  match s.held with
  | none => s
  | some _ =>
    let (answer, source) := s.source.read
    { s with
      source := source
      held := answer
      line := s.window.line
      column := s.window.column
      window := match answer with
        | none => s.window
        | some c => s.window.push c }

/-- How many requests can still be made, at most. -/
def pending (s : Scanner) : Nat :=
  match s.held with
  | none => 0
  | some _ => s.source.answers.length + 1

theorem read_pending {s : Scanner} {c : Char} (h : s.held = some c) :
    s.read.pending < s.pending := by
  simp only [read, pending, h]
  cases ha : s.source.read.1 with
  | none => simp
  | some d =>
    have := Source.read_answers_lt ha
    simp only
    omega

/-- The characters between tokens, comments apart. -/
def isBlank (c : Char) : Bool :=
  c == ' ' || c == '\t' || c == '\n' || c == '\r' || c == '\x0c' || c == '\x0b'

def isLetter (c : Char) : Bool := c.isAlpha

def isLetterOrDigit (c : Char) : Bool := c.isAlphanum

def isDigitOrPoint (c : Char) : Bool := c.isDigit || c == '.'

/-- Whether a character ends the comment that it stands in. -/
def endsComment (c : Char) : Bool := c == '\n' || c == '\r'

/-- Skips blanks and comments. A comment runs from the number sign to the end of the line. -/
def skipLayout (inComment : Bool) (s : Scanner) : Scanner :=
  match h : s.held with
  | none => s
  | some c =>
    have := read_pending h
    if inComment then skipLayout (!endsComment c) s.read
    else if c = '#' then skipLayout true s.read
    else if isBlank c then skipLayout false s.read
    else s
termination_by s.pending

/-- The longest run of characters in a class, from the one that is held back. -/
def takeRun (p : Char → Bool) (s : Scanner) : List Char × Scanner :=
  match h : s.held with
  | none => ([], s)
  | some c =>
    if p c then
      have := read_pending h
      let (run, rest) := takeRun p s.read
      (c :: run, rest)
    else ([], s)
termination_by s.pending

/-- The lexeme that starts with the character that is held back. -/
def lexeme (s : Scanner) : Lexeme × Scanner :=
  match s.held with
  | none => (.endOfInput, s)
  | some c =>
    if isLetter c then
      let (run, rest) := s.takeRun isLetterOrDigit
      (.ofWord (String.ofList run), rest)
    else if isDigitOrPoint c then
      let (run, rest) := s.takeRun isDigitOrPoint
      (.number (String.ofList run), rest)
    else (.char c, s.read)

/-- The next token. After the end of the input it is the end again. -/
def next (s : Scanner) : Token × Scanner :=
  let s := s.skipLayout false
  let (lexeme, rest) := s.lexeme
  (⟨lexeme, ⟨s.file, s.line, s.column⟩⟩, rest)

/-- A token that the scanner has just read. -/
def record (s : Scanner) (t : Token) : Scanned := ⟨t, s.window, s.source.requests⟩

theorem skipLayout_pending_le (inComment : Bool) (s : Scanner) :
    (s.skipLayout inComment).pending ≤ s.pending := by
  fun_induction skipLayout inComment s with
  | case1 => exact Nat.le_refl _
  | case2 _ _ _ hlt ih => exact Nat.le_trans ih (Nat.le_of_lt hlt)
  | case3 _ _ _ _ hlt ih => exact Nat.le_trans ih (Nat.le_of_lt hlt)
  | case4 _ _ _ _ hlt _ _ _ ih => exact Nat.le_trans ih (Nat.le_of_lt hlt)
  | case5 => exact Nat.le_refl _

theorem takeRun_pending_le (p : Char → Bool) (s : Scanner) :
    (s.takeRun p).2.pending ≤ s.pending := by
  fun_induction takeRun p s with
  | case1 => exact Nat.le_refl _
  | case2 s c h hp hlt run rest hr ih =>
    rw [hr] at ih
    exact Nat.le_trans ih (Nat.le_of_lt hlt)
  | case3 => exact Nat.le_refl _

theorem takeRun_pending_lt {p : Char → Bool} {s : Scanner} {c : Char} (h : s.held = some c)
    (hp : p c = true) : (s.takeRun p).2.pending < s.pending := by
  have hr := read_pending h
  have := takeRun_pending_le p s.read
  unfold takeRun
  split
  · simp_all
  · rename_i d hd
    obtain rfl : c = d := by simpa [h] using hd
    simp only [hp, if_true]
    omega

theorem lexeme_pending_lt {s : Scanner} (h : s.lexeme.1 ≠ .endOfInput) :
    s.lexeme.2.pending < s.pending := by
  unfold lexeme at h ⊢
  split at h
  · exact absurd rfl h
  · rename_i c hc
    simp only
    split
    · rename_i hl
      refine takeRun_pending_lt hc ?_
      simpa [isLetter, isLetterOrDigit, Char.isAlphanum] using .inl hl
    · split
      · rename_i hd
        exact takeRun_pending_lt hc hd
      · exact read_pending hc

/-- Each token but the end of the input takes at least one request off those left. -/
theorem next_pending_lt {s : Scanner} (h : s.next.1.lexeme ≠ .endOfInput) :
    s.next.2.pending < s.pending := by
  have := skipLayout_pending_le false s
  have := lexeme_pending_lt (s := s.skipLayout false) h
  exact Nat.lt_of_lt_of_le this ‹_›

/-- The tokens up to the end of the input, itself included. -/
def tokensToEnd (s : Scanner) : List Token × Scanner :=
  let step := s.next
  if step.1.lexeme = .endOfInput then ([step.1], step.2)
  else
    let rest := step.2.tokensToEnd
    (step.1 :: rest.1, rest.2)
termination_by s.pending
decreasing_by exact next_pending_lt ‹_›

end Scanner

end OperatorGrammar
