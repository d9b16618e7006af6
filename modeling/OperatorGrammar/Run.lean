import OperatorGrammar.Node.SExpression
import OperatorGrammar.Session

/-!
Runs on a stack. The log is told of each definition that has been read, and is given its text for
that. A definition whose text finds no room on the stack is not handed out: the error leaves the
run in the middle of the turn, behind the definition, and the run does not go on. Where there is
always room, a run is that of the session.
-/

namespace OperatorGrammar

/-- What a run, or a part of it, comes to. -/
structure Run where
  events : List Event
  /-- The session as it is afterwards. -/
  last : Session
  /-- The error that has left the run, if one has. -/
  left : Option Refusal

namespace Run

/-- A part of a run that no error has left. -/
def ofStep (step : List Event × Session) : Run := ⟨step.1, step.2, none⟩

/-- Puts events in front of those of a run. -/
def after (events : List Event) (r : Run) : Run := { r with events := events ++ r.events }

end Run

namespace Parser

/-- Reads a definition and makes its text for the log. -/
def definitionOn (k : Stack) (p : Parser) : Except Refusal (Except Failure Node) × Parser :=
  match p.definition with
  | (.ok n, q) => ((n.sexprOn k).map fun _ => .ok n, q)
  | (.error f, q) => (.ok (.error f), q)

/-- Reads a form of a kind. Only definitions are given to the log. -/
def formOn (k : Stack) (p : Parser) : FormKind → Except Refusal (Except Failure Node) × Parser
  | .definition => p.definitionOn k
  | .external => (.ok p.external.1, p.external.2)
  | .expression => (.ok p.topLevelExpression.1, p.topLevelExpression.2)

end Parser

namespace Session

/-- Attempts a form. An error of the stack is no failure of the form, and nobody notes it. -/
def attemptOn (k : Stack) (s : Session) (kind : FormKind) : Run :=
  match s.parser.formOn k kind with
  | (.ok _, _) => .ofStep (s.attempt kind)
  | (.error r, parser) =>
    ⟨seenBetween s.parser parser, { s with parser := parser, phase := .finished }, some r⟩

/-- One step of a session. -/
def stepOn (k : Stack) (s : Session) : Run :=
  match s.phase, s.tokens with
  | .ready, t :: _ =>
    if t.token.isChar ';' then .ofStep s.step
    else .after [.prompted s.parser.requests] (s.attemptOn k (.ofLexeme t.token.lexeme))
  | _, _ => .ofStep s.step

theorem attemptOn_of_left {k : Stack} {s : Session} {kind : FormKind}
    (h : (s.attemptOn k kind).left = none) : s.attemptOn k kind = .ofStep (s.attempt kind) := by
  unfold attemptOn at h ⊢
  split
  · rfl
  · rename_i hr
    simp [hr] at h

/-- A step that no error has left is a step of the session. -/
theorem stepOn_of_left {k : Stack} {s : Session} (h : (s.stepOn k).left = none) :
    s.stepOn k = .ofStep s.step := by
  unfold stepOn at h ⊢
  split
  · rename_i t ts hp ht
    rw [hp, ht] at h
    dsimp only at h
    split
    · rfl
    · rename_i hs
      rw [if_neg hs] at h
      have hstep : s.step = after [.prompted s.parser.requests]
          (s.attempt (.ofLexeme t.token.lexeme)) := by
        simp only [step, hp, turn, ht, hs, Bool.false_eq_true, if_false]
      rw [attemptOn_of_left (by exact h), hstep]
      rfl
  · rfl

/-- Goes on until the session ends or an error leaves the run. -/
def drainOn (k : Stack) (s : Session) : Run :=
  if s.phase = .finished then .ofStep ([], s)
  else
    let first := s.stepOn k
    if first.left = none then .after first.events (drainOn k first.last) else first
termination_by s.work
decreasing_by
  rename_i h hleft
  show (s.stepOn k).last.work < s.work
  rw [stepOn_of_left hleft]
  exact step_work_lt h

/-- The trees of all forms of an input, or the report on the errors, unless an error leaves the
run. -/
def programOn (k : Stack) (s : Session) : Except Refusal (Except Diagnostic (List Node)) :=
  let run := s.drainOn k
  match run.left, run.last.collector.combined? with
  | some r, _ => .error r
  | none, some d => .ok (.error d)
  | none, none => .ok (.ok ((Event.results run.events).filterMap fun r => r.outcome.toOption))

end Session

end OperatorGrammar
