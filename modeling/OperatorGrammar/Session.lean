import OperatorGrammar.Options
import OperatorGrammar.Parser

/-!
Reading an input form by form. A turn of the session skips a semicolon, attempts a form, or finds
the end of the input. An attempt that fails is noted, and one token, the one that shows the fault,
is skipped. After each turn the session ends if enough errors have been noted. All that a step
does and that can be observed is an event. Main statements: `attempt_tokens_lt`, an attempt leaves
fewer tokens to come, whether it succeeds or not, and `step_work_lt`, so every session ends.
-/

namespace OperatorGrammar

/-- The three kinds of form. -/
inductive FormKind where
  | definition | external | expression
deriving DecidableEq, Repr

namespace FormKind

/-- A form's kind shows in its first lexeme. -/
def ofLexeme : Lexeme → FormKind
  | .define => definition
  | .external => external
  | _ => expression

def name : FormKind → String
  | definition => "DEFINITION"
  | external => "EXTERN"
  | expression => "EXPRESSION"

def successMessage : FormKind → String
  | definition => "Parsed a function definition."
  | external => "Parsed an extern."
  | expression => "Parsed a top-level expr"

end FormKind

/-- How the attempt to read a form ended. -/
structure FormResult where
  kind : FormKind
  outcome : Except Failure Node

inductive Event where
  /-- A form is awaited; so many characters have been asked for. -/
  | prompted (requests : Nat)
  /-- A token became the lookahead. -/
  | scanned (t : Scanned)
  /-- A definition has been read. -/
  | defined (function : Node)
  /-- A failure has been noted. -/
  | recovering (f : Failure)
  | succeeded (kind : FormKind)
  | yielded (r : FormResult)
  /-- So many errors are enough. -/
  | stopping (errors : Nat)

inductive Phase where
  /-- Nothing has been done. -/
  | fresh
  /-- A turn can be taken. -/
  | ready
  /-- A result has been handed out. -/
  | suspended
  | finished
deriving DecidableEq, Repr

structure Session where
  parser : Parser
  collector : Collector
  phase : Phase

namespace Parser

/-- Reads a form of a kind. -/
def form (p : Parser) : FormKind → Except Failure Node × Parser
  | .definition => p.definition
  | .external => p.external
  | .expression => p.topLevelExpression

end Parser

namespace Session

def start (rules : Rules) (maxErrors : Int) (file : String) (source : Source) : Session :=
  ⟨.start rules file source, .empty maxErrors, .fresh⟩

/-- A session under given options. The table is frozen. -/
def ofOptions (o : Options) (file : String) (source : Source) :
    Except ConfigurationError Session :=
  ({ o with table := o.table.freeze }.rules).map fun rules => start rules o.maxErrors file source

/-- The tokens before the end of the input that are still to come. -/
def tokens (s : Session) : List Scanned := s.parser.upcoming.tokens

/-- The tokens that a parser saw between two of its states. -/
def seenBetween (before after : Parser) : List Event :=
  (before.upcoming.seenUntil after.upcoming).map .scanned

/-- What is shown of a form that has been read. -/
def success (kind : FormKind) (n : Node) : List Event :=
  (if kind = .definition then [.defined n] else []) ++
    [.succeeded kind, .yielded ⟨kind, .ok n⟩]

/-- Attempts a form. A failure is noted, and the token that shows it is skipped. -/
def attempt (s : Session) (kind : FormKind) : List Event × Session :=
  match s.parser.form kind with
  | (.ok n, parser) =>
    (seenBetween s.parser parser ++ success kind n,
      { s with parser := parser, phase := .suspended })
  | (.error f, parser) =>
    (seenBetween s.parser parser ++
        [.recovering f, .scanned parser.next.upcoming.head, .yielded ⟨kind, .error f⟩],
      { parser := parser.next, collector := s.collector.add f.diagnostic, phase := .suspended })

/-- Looks whether enough errors have been noted. If so, the session ends; else it takes a turn. -/
def check (s : Session) : List Event × Session :=
  if s.collector.shouldStop then
    ([.stopping s.collector.count], { s with phase := .finished })
  else ([], { s with phase := .ready })

/-- Puts events in front of those of a step. -/
def after (events : List Event) (step : List Event × Session) : List Event × Session :=
  (events ++ step.1, step.2)

/-- Skips a token. -/
def skip (s : Session) : Session := { s with parser := s.parser.next }

/-- A turn: the end of the input, a semicolon, or an attempt at a form. -/
def turn (s : Session) : List Event × Session :=
  after [.prompted s.parser.requests]
    (match s.tokens with
    | [] => ([], { s with phase := .finished })
    | t :: _ =>
      if t.token.isChar ';' then after [.scanned s.skip.parser.upcoming.head] s.skip.check
      else s.attempt (.ofLexeme t.token.lexeme))

/-- Asks for the first token, unless that has been done. -/
def prime (s : Session) : List Event × Session :=
  let primed := { s with parser := s.parser.prime, phase := .ready }
  (.prompted s.parser.requests ::
    (if s.parser.primed then [] else [.scanned primed.parser.upcoming.head]), primed)

/-- One step of a session. -/
def step (s : Session) : List Event × Session :=
  match s.phase with
  | .fresh => s.prime
  | .ready => s.turn
  | .suspended => s.check
  | .finished => ([], s)

/-- How much a session can still do, at most. -/
def work (s : Session) : Nat :=
  3 * s.tokens.length +
    match s.phase with
    | .fresh | .suspended => 2
    | .ready => 1
    | .finished => 0

end Session

namespace Parser

theorem run_length_le (p : Parser) (r : Expression.Reader) :
    (p.run r).2.upcoming.tokens.length ≤ p.upcoming.tokens.length :=
  r.runOn_length_le p.rules p.upcoming.last p.upcoming.tokens

theorem prototype_length_le (p : Parser) :
    p.prototype.2.upcoming.tokens.length ≤ p.upcoming.tokens.length :=
  Prototype.read_length_le p.upcoming

theorem next_length_lt {p : Parser} (h : p.upcoming.tokens ≠ []) :
    p.next.upcoming.tokens.length < p.upcoming.tokens.length :=
  Upcoming.advance_length_lt h

theorem external_length_lt {p : Parser} (h : p.upcoming.tokens ≠ []) :
    p.external.2.upcoming.tokens.length < p.upcoming.tokens.length :=
  Nat.lt_of_le_of_lt p.next.prototype_length_le (next_length_lt h)

theorem definition_length_lt {p : Parser} (h : p.upcoming.tokens ≠ []) :
    p.definition.2.upcoming.tokens.length < p.upcoming.tokens.length := by
  have hp := Nat.lt_of_le_of_lt p.next.prototype_length_le (next_length_lt h)
  unfold definition
  split
  · simp_all
  · rename_i q hq
    simp only [hq] at hp
    exact Nat.lt_of_le_of_lt (q.run_length_le _) hp

theorem topLevelExpression_length_le (p : Parser) :
    p.topLevelExpression.2.upcoming.tokens.length ≤ p.upcoming.tokens.length :=
  p.run_length_le _

theorem topLevelExpression_length_lt {p : Parser} {n : Node}
    (h : p.topLevelExpression.1 = .ok n) :
    p.topLevelExpression.2.upcoming.tokens.length < p.upcoming.tokens.length := by
  simp only [topLevelExpression, expression, run, Expression.Reader.run] at h ⊢
  cases hr : ((Expression.Reader.expression p.opened).runOn p.rules p.upcoming.last
      p.upcoming.tokens).result with
  | error f => simp [hr, Except.map] at h
  | ok b => exact Expression.Reader.runOn_length_lt rfl hr

theorem form_length_le {p : Parser} (h : p.upcoming.tokens ≠ []) (kind : FormKind) :
    (p.form kind).2.upcoming.tokens.length ≤ p.upcoming.tokens.length :=
  match kind with
  | .definition => Nat.le_of_lt (definition_length_lt h)
  | .external => Nat.le_of_lt (external_length_lt h)
  | .expression => p.topLevelExpression_length_le

/-- A form has at least one token. -/
theorem form_length_lt {p : Parser} (h : p.upcoming.tokens ≠ []) {kind : FormKind} {n : Node}
    (hn : (p.form kind).1 = .ok n) :
    (p.form kind).2.upcoming.tokens.length < p.upcoming.tokens.length :=
  match kind, hn with
  | .definition, _ => definition_length_lt h
  | .external, _ => external_length_lt h
  | .expression, hn => topLevelExpression_length_lt hn

end Parser

namespace Session

/-- An attempt takes at least one token off those to come: if it fails, the token that shows the
fault. -/
theorem attempt_tokens_lt {s : Session} (h : s.tokens ≠ []) (kind : FormKind) :
    (s.attempt kind).2.tokens.length < s.tokens.length := by
  have hle := Parser.form_length_le h kind
  have hlt := @Parser.form_length_lt _ h kind
  have hpos := List.length_pos_iff.2 h
  unfold attempt
  generalize s.parser.form kind = r at *
  rcases r with ⟨f | n, p⟩
  · simp only [tokens, Parser.next, Upcoming.advance_tokens, List.length_tail] at *
    omega
  · exact hlt rfl

theorem attempt_phase (s : Session) (kind : FormKind) :
    (s.attempt kind).2.phase = .suspended := by
  unfold attempt
  rcases s.parser.form kind with ⟨f | n, p⟩ <;> rfl

theorem check_work_le (s : Session) : s.check.2.work ≤ 3 * s.tokens.length + 1 := by
  unfold check
  split <;> simp [work, tokens]

theorem turn_work_le (s : Session) : s.turn.2.work ≤ 3 * s.tokens.length := by
  unfold turn after
  split
  · rename_i h
    simp [work, tokens]
  · rename_i t rest h
    have hne : s.tokens ≠ [] := by simp [h]
    split
    · have hle := s.skip.check_work_le
      have hlt : s.skip.tokens.length < s.tokens.length := Upcoming.advance_length_lt hne
      simp only
      omega
    · have hlt := s.attempt_tokens_lt hne (.ofLexeme t.token.lexeme)
      simp only [work, attempt_phase]
      omega

/-- Each step of a session that has not ended takes something off what it can do. -/
theorem step_work_lt {s : Session} (h : s.phase ≠ .finished) : s.step.2.work < s.work := by
  unfold step
  split
  · rename_i hp
    simp [prime, work, hp, tokens, Parser.prime]
  · rename_i hp
    have := s.turn_work_le
    simp only [work, hp] at this ⊢
    omega
  · rename_i hp
    have := s.check_work_le
    simp only [work, hp] at this ⊢
    omega
  · exact absurd ‹_› h

theorem step_of_finished {s : Session} (h : s.phase = .finished) : s.step = ([], s) := by
  simp [step, h]

/-- Goes on until a result is handed out or the session ends. -/
def next (s : Session) : List Event × Session :=
  let first := s.step
  if first.2.phase = .suspended ∨ first.2.phase = .finished then first
  else after first.1 first.2.next
termination_by s.work
decreasing_by
  rename_i hn
  refine step_work_lt fun h => hn (.inr ?_)
  show s.step.2.phase = .finished
  rw [step_of_finished h]
  exact h

/-- Goes on until the session ends. -/
def drain (s : Session) : List Event × Session :=
  if s.phase = .finished then ([], s)
  else
    let first := s.step
    after first.1 first.2.drain
termination_by s.work
decreasing_by exact step_work_lt ‹_›

/-- Starts over behind what has been read. The errors that were noted stay. -/
def restart (s : Session) : Session := { s with phase := .fresh }

/-- Forgets the errors that were noted. -/
def clear (s : Session) : Session := { s with collector := s.collector.clear }

end Session

namespace Event

/-- Whether an event can happen when so many requests for a character are answered. -/
def isWithin (requests : Nat) : Event → Bool
  | .scanned t => t.requests ≤ requests
  | _ => true

/-- The results that events hand out. -/
def results (events : List Event) : List FormResult :=
  events.filterMap fun
    | .yielded r => some r
    | _ => none

end Event

namespace Session

/-- The results of all forms of an input. -/
def results (s : Session) : List FormResult := Event.results s.drain.1

/-- The trees of all forms of an input, or the report on the errors. -/
def program (s : Session) : Except Diagnostic (List Node) :=
  let last := s.drain
  match last.2.collector.combined? with
  | some d => .error d
  | none => .ok ((Event.results last.1).filterMap fun r => r.outcome.toOption)

end Session

end OperatorGrammar
