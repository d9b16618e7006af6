import OperatorGrammar.Fault
import OperatorGrammar.Prototype

/-!
Reading a prototype: a name, then parameter names in parentheses, separated by nothing but layout
and pairwise different.
-/

namespace OperatorGrammar.Prototype

/-- Reads names up to the first token that is none, behind the parameters in `read`, the latest
first. -/
def readParameters (read : List String) :
    List Scanned → Except Failure (List String) × List Scanned
  | [] => (.ok read.reverse, [])
  | t :: rest =>
    match t.token.lexeme with
    | .identifier name =>
      if name ∈ read then (.error ⟨.duplicateParameter name, t⟩, t :: rest)
      else readParameters (name :: read) rest
    | _ => (.ok read.reverse, t :: rest)

/-- Fails at the lookahead, which is not what is expected. -/
def missing {α : Type} (expected : Expected) (u : Upcoming) : Except Failure α × Upcoming :=
  (.error ⟨.missing expected, u.head⟩, u)

/-- Reads a prototype. A failure leaves the token that shows it as the lookahead. -/
def read (u : Upcoming) : Except Failure Prototype × Upcoming :=
  match u.lexeme with
  | .identifier name =>
    let opening := u.advance
    if opening.lexeme = .char '(' then
      match readParameters [] opening.advance.tokens with
      | (.error f, left) => (.error f, u.withTokens left)
      | (.ok parameters, left) =>
        let rest := u.withTokens left
        if rest.lexeme = .char ')' then
          (.ok ⟨name, parameters, some u.head.token.location⟩, rest.advance)
        else missing .parametersClosing rest
    else missing .parametersOpening opening
  | _ => missing .functionName u

theorem readParameters_length_le (read : List String) (ts : List Scanned) :
    (readParameters read ts).2.length ≤ ts.length := by
  induction ts generalizing read with
  | nil => simp [readParameters]
  | cons t rest ih =>
    simp only [readParameters]
    split
    · split
      · exact Nat.le_refl _
      · exact Nat.le_succ_of_le (ih _)
    · exact Nat.le_refl _

theorem read_length_le (u : Upcoming) : (read u).2.tokens.length ≤ u.tokens.length := by
  unfold read
  split
  · simp only
    split
    · have h := readParameters_length_le [] u.advance.advance.tokens
      have h1 := u.advance_length_le
      have h2 := u.advance.advance_length_le
      split
      · simp_all; omega
      · split
        · simp_all; omega
        · simp_all [missing]; omega
    · exact u.advance_length_le
  · exact Nat.le_refl _

end OperatorGrammar.Prototype
