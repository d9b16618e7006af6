import OperatorGrammar.Proofs.Turn.Stop

/-!
When a run prompts: once before it asks for a character, and then whenever it takes a turn, before
it asks for anything in that turn. The look at the end of the input is a turn in this; errors may
end the run before. Main statement: `Session.start_prompts`.
-/

namespace OperatorGrammar

/-- The first token is not scanned without a request. -/
theorem Upcoming.ofAnswers_requests_pos (file : String) (answers : List (Option Char))
    (remembersEnd : Bool) :
    0 < (ofSource file (.ofAnswers answers remembersEnd)).head.requests := by
  obtain ⟨htokens, hlast⟩ := ofAnswers_spec file answers remembersEnd
  cases hcuts : Scanner.cuts [] (Source.ofAnswers answers remembersEnd).text with
  | nil =>
    rw [hcuts, List.map_nil] at htokens
    rw [head, htokens, hlast]
    exact Nat.succ_pos _
  | cons c cs =>
    rw [hcuts, List.map_cons] at htokens
    rw [head_of_tokens htokens]
    exact Nat.succ_pos _

namespace Event

/-- How many characters had been asked for at each prompt. -/
def prompts (events : List Event) : List Nat :=
  events.filterMap fun
    | .prompted requests => some requests
    | _ => none

@[simp] theorem prompts_append (es fs : List Event) :
    prompts (es ++ fs) = prompts es ++ prompts fs :=
  List.filterMap_append

end Event

namespace Session

variable {s : Session}

@[simp] theorem prompts_check (s : Session) : Event.prompts s.check.1 = [] := by
  unfold check
  split <;> rfl

@[simp] theorem prompts_seenBetween (p q : Parser) : Event.prompts (seenBetween p q) = [] := by
  simp only [Event.prompts, seenBetween, List.filterMap_map, List.filterMap_eq_nil_iff]
  intro t _
  rfl

@[simp] theorem prompts_success (kind : FormKind) (b : Node) :
    Event.prompts (success kind b) = [] := by
  cases kind <;> rfl

/-- A look at the errors says so if it ends the run. -/
theorem check_phase_eq_finished_iff (s : Session) :
    s.check.2.phase = .finished ↔ ∃ k, .stopping k ∈ s.check.1 := by
  unfold check
  split <;> simp

/-- A step prompts if and only if it takes a turn; unless it finds the end of the input, it says so
if it ends the run. -/
theorem step_prompts (hp : s.phase = .suspended ∨ s.phase = .ready ∧ s.tokens ≠ []) :
    Event.prompts s.step.1 = s.turn?.toList.map (·.before.requests) ∧
      (s.step.2.phase = .finished ↔ ∃ k, .stopping k ∈ s.step.1) := by
  rcases hp with hp | ⟨hp, hne⟩
  · rw [step_of_suspended hp, prompts_check, turn?_eq_none (.inl (by simp [hp]))]
    exact ⟨rfl, s.check_phase_eq_finished_iff⟩
  · have hturn : s.turn?.toList.map (·.before.requests) = [s.parser.requests] := by
      rw [turn?, if_pos ⟨hp, hne⟩]
      rfl
    obtain ⟨t, ts, ht⟩ := List.exists_cons_of_ne_nil hne
    rw [hturn]
    by_cases hs : t.token.isChar ';' = true
    · rw [step_of_semicolon hp ht hs, after, Event.prompts_append, prompts_check]
      refine ⟨rfl, s.skip.check_phase_eq_finished_iff.trans ?_⟩
      simp
    · rw [Bool.not_eq_true] at hs
      have hnot := stopping_not_mem_step_of_form hp ht hs
      refine ⟨?_, by simp [step_phase_of_form hp ht hs, hnot]⟩
      rcases hf : s.parser.form (.ofLexeme t.token.lexeme) with ⟨f | b, q⟩
      · rw [step_of_error hp ht hs hf, Event.prompts_append, Event.prompts_append,
          prompts_seenBetween]
        rfl
      · rw [step_of_ok hp ht hs hf, Event.prompts_append, Event.prompts_append,
          prompts_seenBetween, prompts_success]
        rfl

/-- The prompts of a run that has asked for the first token, and why the run ends: because of
errors, or at the end of the input, which takes a prompt of its own. -/
inductive Prompts (s : Session) : Prop where
  | stopped {k : Nat} : .stopping k ∈ s.drain.1 →
    Event.prompts s.drain.1 = s.turns.map (·.before.requests) → Prompts s
  | ended : (∀ k, .stopping k ∉ s.drain.1) → s.drain.2.tokens = [] →
    Event.prompts s.drain.1 = s.turns.map (·.before.requests) ++ [s.drain.2.parser.requests] →
      Prompts s

theorem drain_prompts (hp : s.phase ≠ .fresh) (hf : s.phase ≠ .finished) : s.Prompts := by
  induction s using run_induction with
  | finished s h => exact absurd h hf
  | step s h ih =>
    by_cases hend : s.phase = .ready ∧ s.tokens = []
    · obtain ⟨hready, ht⟩ := hend
      have hstep := step_of_end hready ht
      have hdrain : s.drain = s.step := by
        rw [drain_of_step h, drain_of_finished (by rw [hstep]), after, List.append_nil]
      have hturns : s.turns = [] := by
        rw [turns_of_step h, turn?_eq_none (.inr ht), turns_of_finished (by rw [hstep])]
        rfl
      refine .ended ?_ ?_ ?_
      all_goals rw [hdrain, hstep]
      · simp
      · exact ht
      · rw [hturns]
        rfl
    · have hgo : s.phase = .suspended ∨ s.phase = .ready ∧ s.tokens ≠ [] := by
        cases hphase : s.phase with
        | fresh => exact absurd hphase hp
        | ready => exact .inr ⟨rfl, fun ht => hend ⟨hphase, ht⟩⟩
        | suspended => exact .inl rfl
        | finished => exact absurd hphase h
      obtain ⟨hprompts, hstop⟩ := step_prompts hgo
      have hdrain := drain_of_step h
      have hevents : s.drain.1 = s.step.1 ++ s.step.2.drain.1 := congrArg Prod.fst hdrain
      have hall : Event.prompts s.drain.1 =
          s.turn?.toList.map (·.before.requests) ++ Event.prompts s.step.2.drain.1 := by
        rw [hevents, Event.prompts_append, hprompts]
      by_cases hs : s.step.2.phase = .finished
      · obtain ⟨k, hk⟩ := hstop.1 hs
        refine .stopped (hevents ▸ List.mem_append_left _ hk) ?_
        rw [hall, turns_of_step h, turns_of_finished hs, drain_of_finished hs, List.append_nil]
        exact List.append_nil _
      · rcases ih (step_phase hp).1 hs with ⟨hk, hturns⟩ | ⟨hk, ht, hturns⟩
        · refine .stopped (hevents ▸ List.mem_append_right _ hk) ?_
          rw [hall, hturns, turns_of_step h, List.map_append]
        · refine .ended ?_ ?_ ?_
          · intro k hmem
            rw [hevents, List.mem_append] at hmem
            exact hmem.elim (fun hmem => hs (hstop.2 ⟨k, hmem⟩)) (hk k)
          · rwa [hdrain]
          · rw [hall, hturns, turns_of_step h, List.map_append, List.append_assoc, hdrain]
            rfl

/-- A run prompts before it asks for anything, then asks for the first token, and from there on
prompts once for each turn. -/
theorem start_prompts (R : Rules) (maxErrors : Int) (file : String) (answers : List (Option Char))
    (remembersEnd : Bool) :
    let s := start R maxErrors file (.ofAnswers answers remembersEnd)
    let first := s.parser.upcoming.head
    s.drain.1 = [.prompted 0, .scanned first] ++ s.step.2.drain.1 ∧ 0 < first.requests ∧
      s.step.2.Prompts ∧ s.turns = s.step.2.turns ∧ ∀ τ ∈ s.turns, τ.Sound := by
  intro s first
  have ho := Upcoming.ofAnswers_ordered file answers remembersEnd
  have hturns : s.turns = s.step.2.turns := start_turns
  have hready : s.step.2.phase = .ready := rfl
  refine ⟨congrArg Prod.fst start_drain, ?_, drain_prompts ?_ ?_, hturns, ?_⟩
  · exact Upcoming.ofAnswers_requests_pos file answers remembersEnd
  · rw [hready]
    decide
  · rw [hready]
    decide
  · rw [hturns]
    exact (primed_walks R maxErrors ho).walk.sound

end Session

end OperatorGrammar
