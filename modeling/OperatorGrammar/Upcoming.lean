import OperatorGrammar.Scanner

/-!
The tokens that are still to come, up to the end of the input. The first of them is the
lookahead. The end stays the lookahead however often one moves on. Since each token carries how
much had been read when it was scanned, the list says what a reader who scans on demand sees.
-/

namespace OperatorGrammar

structure Upcoming where
  /-- The tokens before the end of the input. -/
  tokens : List Scanned
  /-- The end of the input. -/
  last : Scanned
  last_lexeme : last.token.lexeme = .endOfInput
deriving Repr

namespace Upcoming

/-- The lookahead. -/
def head (u : Upcoming) : Scanned :=
  match u.tokens with
  | [] => u.last
  | t :: _ => t

/-- The lookahead's lexeme. -/
def lexeme (u : Upcoming) : Lexeme := u.head.token.lexeme

/-- What is to come when only the given tokens are left before the end. -/
def withTokens (u : Upcoming) (tokens : List Scanned) : Upcoming := { u with tokens := tokens }

/-- Moves on by one token, unless the end has been reached. -/
def advance (u : Upcoming) : Upcoming := u.withTokens u.tokens.tail

/-- The tokens up to the end of the input, itself included. -/
def toList (u : Upcoming) : List Scanned := u.tokens ++ [u.last]

/-- The tokens that become the lookahead in moving on from `u` to `v`: those behind the lookahead
of `u` that had been read when that of `v` had been. Each token asks for more characters than the
one before, and only the end of the input may ask for none. -/
def seenUntil (u v : Upcoming) : List Scanned :=
  u.tokens.tail.takeWhile (·.requests ≤ v.head.requests) ++
    if v.tokens.isEmpty then [u.last] else []

/-- Scans up to the end of the input, behind the tokens in `read`, the latest first. -/
def scanOnto (read : List Scanned) (s : Scanner) : Upcoming :=
  let t := s.next.1
  let rest := s.next.2
  if h : t.lexeme = .endOfInput then ⟨read.reverse, rest.record t, h⟩
  else scanOnto (rest.record t :: read) rest
termination_by s.pending
decreasing_by exact Scanner.next_pending_lt h

def ofScanner (s : Scanner) : Upcoming := scanOnto [] s

/-- The tokens of a source. It has finitely many answers, so all of them can be scanned up front;
each token says how many requests it takes, and so it is known what has been asked for at any
time. -/
def ofSource (file : String) (source : Source) : Upcoming := ofScanner (.start file source)

@[simp] theorem withTokens_tokens (u : Upcoming) (tokens : List Scanned) :
    (u.withTokens tokens).tokens = tokens := rfl

@[simp] theorem withTokens_last (u : Upcoming) (tokens : List Scanned) :
    (u.withTokens tokens).last = u.last := rfl

@[simp] theorem advance_tokens (u : Upcoming) : u.advance.tokens = u.tokens.tail := rfl

@[simp] theorem advance_last (u : Upcoming) : u.advance.last = u.last := rfl

theorem advance_length_le (u : Upcoming) : u.advance.tokens.length ≤ u.tokens.length := by
  simp

theorem advance_length_lt {u : Upcoming} (h : u.tokens ≠ []) :
    u.advance.tokens.length < u.tokens.length := by
  have := List.length_pos_iff.2 h
  simp only [advance_tokens, List.length_tail]
  omega

/-- Scanning onto tokens that are there already puts the new ones behind them. -/
theorem scanOnto_tokens (read : List Scanned) (s : Scanner) :
    scanOnto read s =
      (scanOnto [] s).withTokens (read.reverse ++ (scanOnto [] s).tokens) := by
  induction hn : s.pending using Nat.strongRecOn generalizing s read with
  | ind n ih =>
    rw [scanOnto.eq_def read s, scanOnto.eq_def [] s]
    simp only
    split
    · simp [withTokens]
    · rename_i h
      have hlt := Scanner.next_pending_lt h
      rw [ih _ (hn ▸ hlt) (s.next.2.record s.next.1 :: read) _ rfl,
        ih _ (hn ▸ hlt) [s.next.2.record s.next.1] _ rfl]
      simp [withTokens]

end Upcoming

end OperatorGrammar
