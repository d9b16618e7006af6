import OperatorGrammar.Proofs.Program

/-!
The forms of an input, without a greatest number of errors. A parser takes one turn after another
until it comes to the end of the input; a run hands out what these turns give, unless it stops
before. Main statements: `Session.start_shouldStop_iff` and `Session.start_results_eq_forms`.
-/

namespace OperatorGrammar

/-- The failure of a form that cannot be read. -/
def FormResult.failure? (r : FormResult) : Option Failure :=
  match r.outcome with
  | .error f => some f
  | .ok _ => none

theorem FormResult.failure?_eq_some_iff {r : FormResult} {f : Failure} :
    r.failure? = some f ↔ r.outcome = .error f := by
  unfold failure?
  cases r.outcome <;> simp

namespace Parser

/-- A turn in front of a token. A semicolon gives no result; behind a form that fails the token that
shows the fault is skipped. -/
def turn (p : Parser) : Option FormResult × Parser :=
  if p.upcoming.head.token.isChar ';' then (none, p.next)
  else
    let kind := FormKind.ofLexeme p.upcoming.lexeme
    match p.form kind with
    | (.ok n, q) => (some ⟨kind, .ok n⟩, q)
    | (.error f, q) => (some ⟨kind, .error f⟩, q.next)

variable {p q : Parser}

theorem turn_of_semicolon (h : p.upcoming.head.token.isChar ';' = true) :
    p.turn = (none, p.next) := by
  rw [turn, if_pos h]

theorem turn_of_ok {n : Node} (h : p.upcoming.head.token.isChar ';' = false)
    (hf : p.form (.ofLexeme p.upcoming.lexeme) = (.ok n, q)) :
    p.turn = (some ⟨.ofLexeme p.upcoming.lexeme, .ok n⟩, q) := by
  simp only [turn, h, Bool.false_eq_true, if_false, hf]

theorem turn_of_error {f : Failure} (h : p.upcoming.head.token.isChar ';' = false)
    (hf : p.form (.ofLexeme p.upcoming.lexeme) = (.error f, q)) :
    p.turn = (some ⟨.ofLexeme p.upcoming.lexeme, .error f⟩, q.next) := by
  simp only [turn, h, Bool.false_eq_true, if_false, hf]

/-- All that a turn can do: skip a semicolon, read a form, or fail to. -/
theorem turn_cases (p : Parser) :
    p.upcoming.head.token.isChar ';' = true ∧ p.turn = (none, p.next) ∨
      p.upcoming.head.token.isChar ';' = false ∧
        ((∃ n q, p.form (.ofLexeme p.upcoming.lexeme) = (.ok n, q) ∧
            p.turn = (some ⟨.ofLexeme p.upcoming.lexeme, .ok n⟩, q)) ∨
          ∃ f q, p.form (.ofLexeme p.upcoming.lexeme) = (.error f, q) ∧
            p.turn = (some ⟨.ofLexeme p.upcoming.lexeme, .error f⟩, q.next)) := by
  cases hs : p.upcoming.head.token.isChar ';' with
  | true => exact .inl ⟨rfl, turn_of_semicolon hs⟩
  | false =>
    rcases hf : p.form (.ofLexeme p.upcoming.lexeme) with ⟨f | n, q⟩
    · exact .inr ⟨rfl, .inr ⟨f, q, rfl, turn_of_error hs hf⟩⟩
    · exact .inr ⟨rfl, .inl ⟨n, q, rfl, turn_of_ok hs hf⟩⟩

/-- A turn in front of anything but a semicolon gives what the form gives. -/
theorem turn_result (h : p.upcoming.head.token.isChar ';' = false) :
    p.turn.1 = some ⟨.ofLexeme p.upcoming.lexeme, (p.form (.ofLexeme p.upcoming.lexeme)).1⟩ := by
  rcases hf : p.form (.ofLexeme p.upcoming.lexeme) with ⟨f | n, q⟩
  · rw [turn_of_error h hf]
  · rw [turn_of_ok h hf]

theorem turn_keeps (p : Parser) : p.turn.2 = { p with upcoming := p.turn.2.upcoming } := by
  have hk := p.form_keeps (.ofLexeme p.upcoming.lexeme)
  rcases p.turn_cases with ⟨-, ht⟩ | ⟨-, ⟨n, q, hf, ht⟩ | ⟨f, q, hf, ht⟩⟩
  · rw [ht]
    rfl
  · rw [ht]
    rwa [hf] at hk
  · rw [hf] at hk
    rw [ht, show q = { p with upcoming := q.upcoming } from hk]
    rfl

/-- A turn takes tokens off the front. -/
theorem turn_moves (p : Parser) : ∃ us, p.upcoming.Moves us p.turn.2.upcoming := by
  obtain ⟨us, hm⟩ := p.form_moves (.ofLexeme p.upcoming.lexeme)
  rcases p.turn_cases with ⟨-, ht⟩ | ⟨-, ⟨n, q, hf, ht⟩ | ⟨f, q, hf, ht⟩⟩
  · rw [ht]
    exact ⟨_, p.upcoming.moves_advance⟩
  · rw [hf] at hm
    rw [ht]
    exact ⟨us, hm⟩
  · rw [hf] at hm
    rw [ht]
    exact ⟨_, hm.trans q.upcoming.moves_advance⟩

/-- A turn takes at least one token. -/
theorem turn_length_lt (h : p.upcoming.tokens ≠ []) :
    p.turn.2.upcoming.tokens.length < p.upcoming.tokens.length := by
  have hle := form_length_le h (.ofLexeme p.upcoming.lexeme)
  have hlt := @form_length_lt p h (.ofLexeme p.upcoming.lexeme)
  have hpos := List.length_pos_iff.2 h
  rcases p.turn_cases with ⟨-, ht⟩ | ⟨-, ⟨n, q, hf, ht⟩ | ⟨f, q, hf, ht⟩⟩
  · rw [ht]
    exact next_length_lt h
  · rw [hf] at hlt
    rw [ht]
    exact hlt rfl
  · rw [hf] at hle
    rw [ht]
    simp only [next, Upcoming.advance_tokens, List.length_tail] at *
    omega

/-- The results of all turns up to the end of the input. -/
def forms (p : Parser) : List FormResult :=
  if p.upcoming.tokens = [] then [] else p.turn.1.toList ++ p.turn.2.forms
termination_by p.upcoming.tokens.length
decreasing_by exact turn_length_lt ‹_›

theorem forms_of_nil (h : p.upcoming.tokens = []) : p.forms = [] := by
  rw [forms, if_pos h]

theorem forms_of_turn (h : p.upcoming.tokens ≠ []) :
    p.forms = p.turn.1.toList ++ p.turn.2.forms := by
  rw [forms, if_neg h]

end Parser

/-! ## The turns of a run -/

theorem Turn.Sound.turn_eq {τ : Turn} (h : τ.Sound) : τ.before.turn = (τ.result, τ.after) := by
  cases h with
  | @semicolon p t hs hm =>
    rw [← Upcoming.head_of_tokens hm.tokens] at hs
    exact Parser.turn_of_semicolon hs
  | success hs hf _ _ => exact Parser.turn_of_ok hs hf
  | failure hs hf _ _ _ _ => exact Parser.turn_of_error hs hf

/-- The forms of a walk come first, and then those behind it. -/
theorem Walk.forms_eq {p q : Parser} {τs : List Turn} (h : Walk p τs q) :
    p.forms = τs.filterMap Turn.result ++ q.forms := by
  induction h with
  | nil p => rfl
  | @cons τ τs q hτ _ ih =>
    obtain ⟨t, ts, us, ht, -⟩ := hτ.exists_cons
    rw [Parser.forms_of_turn (ht ▸ List.cons_ne_nil t ts), hτ.turn_eq, ih, List.filterMap_cons]
    cases τ.result <;> rfl

/-- A failure is that of a form, and shows one of the tokens to come, the end of the input
included. -/
theorem Walk.failure {p q : Parser} {τs : List Turn} (h : Walk p τs q) {τ : Turn} (hτ : τ ∈ τs)
    {kind : FormKind} {f : Failure} (hr : τ.result = some ⟨kind, .error f⟩) :
    f.token ∈ p.upcoming.toList ∧ ∃ b : Parser, b.rules = p.rules ∧ (b.form kind).1 = .error f := by
  obtain ⟨⟨us, hu⟩, hrules, -⟩ := h.exists_moves τ hτ
  cases h.sound τ hτ with
  | semicolon => cases hr
  | success => cases hr
  | @failure b q' g vs _ hf hv ht _ _ =>
    obtain ⟨rfl, rfl⟩ : _ = kind ∧ g = f := by simpa using hr
    refine ⟨?_, b, hrules, congrArg Prod.fst hf⟩
    rw [(hu.trans hv).toList, ← ht, Upcoming.toList, Upcoming.head]
    cases q'.upcoming.tokens <;> simp

/-- The failures of turns are those of their results. -/
theorem filterMap_failure? (τs : List Turn) :
    τs.filterMap Turn.failure? = (τs.filterMap Turn.result).filterMap FormResult.failure? := by
  rw [List.filterMap_filterMap]
  rfl

namespace Session

/-- What a step does that takes a turn: it hands out the result, goes on with the parser that is
left, and notes a failure. -/
theorem step_turn {s : Session} (hp : s.phase = .ready) (hne : s.tokens ≠ []) :
    Event.results s.step.1 = s.parser.turn.1.toList ∧ s.step.2.parser = s.parser.turn.2 ∧
      s.step.2.collector = (s.parser.turn.1.bind FormResult.failure?).toList.foldl
        (fun c f => c.add f.diagnostic) s.collector := by
  obtain ⟨t, ts, ht⟩ := List.exists_cons_of_ne_nil hne
  have hhead : s.parser.upcoming.head = t := Upcoming.head_of_tokens ht
  have hlexeme : s.parser.upcoming.lexeme = t.token.lexeme := Upcoming.lexeme_of_tokens ht
  rcases s.parser.turn_cases with ⟨hs, hturn⟩ | ⟨hs, ⟨n, q, hf, hturn⟩ | ⟨f, q, hf, hturn⟩⟩
  · rw [hhead] at hs
    rw [hturn, step_of_semicolon hp ht hs, after, Event.results_append, results_check, parser_check,
      collector_check]
    exact ⟨rfl, rfl, rfl⟩
  · rw [hhead] at hs
    rw [hlexeme] at hf hturn
    rw [hturn, step_of_ok hp ht hs hf, Event.results_append, Event.results_append,
      results_seenBetween, results_success]
    exact ⟨rfl, rfl, rfl⟩
  · rw [hhead] at hs
    rw [hlexeme] at hf hturn
    rw [hturn, step_of_error hp ht hs hf, Event.results_append, Event.results_append,
      results_seenBetween]
    exact ⟨rfl, rfl, rfl⟩

variable {R : Rules} {maxErrors : Int} {file : String} {source : Source}

theorem start_collector (R : Rules) (maxErrors : Int)
    (ho : (Upcoming.ofSource file source).Ordered) :
    (start R maxErrors file source).drain.2.collector.maxErrors = maxErrors ∧
      (start R maxErrors file source).drain.2.collector.count =
        ((start R maxErrors file source).results.filterMap FormResult.failure?).length := by
  constructor
  · rw [start_drain, show (after _ _).2.collector = _ from (primed_walks R maxErrors ho).collector,
      foldl_add_maxErrors]
    rfl
  · rw [Collector.count, start_diagnostics ho, List.length_map, filterMap_failure?, results,
      start_results ho]

/-- A run fails at one of the tokens of the input or at its end, in reading a form. -/
theorem start_failure (ho : (Upcoming.ofSource file source).Ordered) {r : FormResult} {f : Failure}
    (hr : r ∈ (start R maxErrors file source).results) (hf : r.outcome = .error f) :
    f.token ∈ (Upcoming.ofSource file source).toList ∧
      ∃ p : Parser, p.rules = R ∧ (p.form r.kind).1 = .error f := by
  obtain ⟨kind, outcome⟩ := r
  obtain rfl : outcome = .error f := hf
  rw [results, start_results ho, start_turns] at hr
  obtain ⟨τ, hτ, hτr⟩ := List.mem_filterMap.1 hr
  exact (primed_walks R maxErrors ho).walk.failure hτ hτr

/-- The parser of a run, in front of the first token. -/
theorem start_forms (R : Rules) (maxErrors : Int) (ho : (Upcoming.ofSource file source).Ordered) :
    ∃ q : Parser, (Parser.start R file source).prime.forms =
        (start R maxErrors file source).results ++ q.forms ∧
      ((start R maxErrors file source).drain.2.collector.shouldStop = false →
        q.upcoming.tokens = []) := by
  refine ⟨(primed R maxErrors file source).drain.2.parser, ?_, ?_⟩
  · rw [results, start_results ho, start_turns]
    exact (primed_walks R maxErrors ho).walk.forms_eq
  · intro h
    rw [start_drain] at h
    have hready : (primed R maxErrors file source).phase = .ready := rfl
    rcases drain_tokens (s := primed R maxErrors file source) (by simp [hready])
      (by simp [hready]) with ht | ⟨hs, -⟩
    · exact ht
    · cases hs.symm.trans h

/-- A run that is not stopped hands out all forms. -/
theorem start_results_eq_forms (ho : (Upcoming.ofSource file source).Ordered)
    (h : (start R maxErrors file source).drain.2.collector.shouldStop = false) :
    (start R maxErrors file source).results = (Parser.start R file source).prime.forms := by
  obtain ⟨q, hf, hq⟩ := start_forms R maxErrors ho
  rw [hf, Parser.forms_of_nil (hq h), List.append_nil]

/-- A run is stopped exactly if too many of the forms fail. -/
theorem start_shouldStop_iff (ho : (Upcoming.ofSource file source).Ordered) :
    (start R maxErrors file source).drain.2.collector.shouldStop = false ↔
      (((Parser.start R file source).prime.forms.filterMap FormResult.failure?).length : Int) <
        maxErrors := by
  obtain ⟨hmax, hcount⟩ := start_collector R maxErrors ho
  have hstop : (start R maxErrors file source).drain.2.collector.shouldStop = false ↔
      (((start R maxErrors file source).results.filterMap FormResult.failure?).length : Int) <
        maxErrors := by
    rw [Collector.shouldStop, hmax, hcount, decide_eq_false_iff_not, Int.not_le]
  constructor
  · intro h
    rw [← start_results_eq_forms ho h]
    exact hstop.1 h
  · intro h
    obtain ⟨q, hf, -⟩ := start_forms R maxErrors ho
    rw [hf, List.filterMap_append, List.length_append] at h
    exact hstop.2 (by omega)

end Session

end OperatorGrammar
