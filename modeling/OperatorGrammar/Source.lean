/-!
Where characters come from. A source is asked for one character at a time and answers with a
character or with nothing, which says that there is none for now. Each request is counted. The
answers are a finite list. A source that never ends, or that makes up its answers as it is asked, is
known by its fronts, each of which is such a list.
-/

namespace OperatorGrammar

/-- What is left of an input that is handed out a character at a time. -/
structure Source where
  /-- The answers to come; after the last one the source answers nothing for ever. -/
  answers : List (Option Char)
  /-- Whether a first answer of nothing is taken as final, so that nobody asks again. -/
  remembersEnd : Bool
  /-- Whether such an answer has been given. -/
  ended : Bool
  /-- How many requests have been made. -/
  requests : Nat
deriving Repr

namespace Source

def ofAnswers (answers : List (Option Char)) (remembersEnd : Bool) : Source :=
  ⟨answers, remembersEnd, false, 0⟩

/-- The source that hands out a text. -/
def ofList (text : List Char) : Source := ofAnswers (text.map some) false

def ofString (text : String) : Source := ofList text.toList

/-- One request. A source that remembers its end does not count requests made after it. -/
def read (s : Source) : Option Char × Source :=
  if s.ended then (none, s) else
  match s.answers with
  | [] => (none, { s with ended := s.remembersEnd, requests := s.requests + 1 })
  | none :: rest =>
    (none, { s with answers := rest, ended := s.remembersEnd, requests := s.requests + 1 })
  | some c :: rest => (some c, { s with answers := rest, requests := s.requests + 1 })

/-- The answers to a number of requests. -/
def readMany : Nat → Source → List (Option Char) × Source
  | 0, s => ([], s)
  | n + 1, s =>
    let (answer, s) := s.read
    let (answers, s) := readMany n s
    (answer :: answers, s)

/-- An answered character is one answer less to come. -/
theorem read_answers_lt {s : Source} {c : Char} (h : s.read.1 = some c) :
    s.read.2.answers.length < s.answers.length := by
  unfold read at h ⊢
  split
  · simp_all
  · split <;> simp_all

end Source

end OperatorGrammar
