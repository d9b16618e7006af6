import OperatorGrammar.Proofs.Consumption
import OperatorGrammar.Proofs.Scanning

/-!
The turns of a run. A turn starts in front of a token. The tokens that it takes are those that were
the lookahead while it lasted, but for the one that is the lookahead when it is over. Main statements:
`Session.exists_takes` and `Session.Takes.turn?_eq`.
-/

namespace OperatorGrammar

namespace Event

/-- The tokens that became the lookahead. -/
def scans (events : List Event) : List Scanned :=
  events.filterMap fun
    | .scanned t => some t
    | _ => none

@[simp] theorem scans_append (es fs : List Event) : scans (es ++ fs) = scans es ++ scans fs :=
  List.filterMap_append

@[simp] theorem results_append (es fs : List Event) :
    results (es ++ fs) = results es ++ results fs :=
  List.filterMap_append

end Event

/-- What a turn takes and gives. -/
structure Turn where
  /-- The parser when the turn starts. -/
  before : Parser
  /-- The parser when the turn is over. -/
  after : Parser
  /-- The tokens that the turn takes, in order. -/
  span : List Scanned
  /-- The result of an attempt; there is none if a semicolon was skipped. -/
  result : Option FormResult

namespace Turn

/-- The failure of a turn that fails. -/
def failure? (τ : Turn) : Option Failure :=
  τ.result.bind fun r =>
    match r.outcome with
    | .error f => some f
    | .ok _ => none

end Turn

namespace Session

/-- The turn that is taken next, if one can be and the end of the input is not there yet. -/
def turn? (s : Session) : Option Turn :=
  if s.phase = .ready ∧ s.tokens ≠ [] then
    some {
      before := s.parser
      after := s.step.2.parser
      span := (s.parser.upcoming.head :: Event.scans s.step.1).dropLast
      result := (Event.results s.step.1).head? }
  else none

/-- The turns of a run, but for the one that finds the end of the input. -/
def turns (s : Session) : List Turn :=
  if s.phase = .finished then [] else s.turn?.toList ++ s.step.2.turns
termination_by s.work
decreasing_by exact step_work_lt ‹_›

end Session

namespace Upcoming

variable {u v : Upcoming} {us : List Scanned}

theorem Ordered.of_moves (ho : u.Ordered) (hm : u.Moves us v) : v.Ordered := by
  obtain ⟨hn, hi, hb⟩ := ho
  rw [hm.tokens] at hn hi hb
  constructor
  case ne_endOfInput => exact fun t ht => hn t (List.mem_append_right _ ht)
  case increasing => exact (List.pairwise_append.1 hi).2.1
  case bounded =>
    intro t ht
    rw [hm.last]
    exact hb t (List.mem_append_right _ ht)

/-- Nothing behind a token has been asked for when it is the lookahead. -/
theorem takeWhile_requests {t : Scanned} {ts : List Scanned}
    (h : (t :: ts).Pairwise fun s t => s.requests < t.requests) :
    ts.takeWhile (·.requests ≤ t.requests) = [] := by
  cases ts with
  | nil => rfl
  | cons t' ts =>
    have hlt : t.requests < t'.requests := (List.pairwise_cons.1 h).1 t' List.mem_cons_self
    rw [List.takeWhile_cons, if_neg]
    simpa using hlt

/-- Moving on, one sees the tokens that one moves over, but for the first, and the one that one
comes to. -/
theorem Ordered.cons_seenUntil (ho : u.Ordered) (hm : u.Moves us v) (hne : u.tokens ≠ []) :
    u.head :: u.seenUntil v = us ++ [v.head] := by
  obtain ⟨-, hi, hb⟩ := ho
  cases us with
  | nil =>
    -- one has not moved, and nothing is seen
    obtain rfl := hm.eq_of_nil
    cases hu : v.tokens with
    | nil => exact absurd hu hne
    | cons t ts =>
      rw [hu] at hi
      simp [seenUntil, head, hu, takeWhile_requests hi]
  | cons a us =>
    have ht := hm.tokens
    rw [ht] at hi hb
    obtain ⟨-, hv, hbehind⟩ := List.pairwise_append.1 (List.pairwise_cons.1 hi).2
    have hhead : u.head = a := by simp [head, ht]
    rw [hhead, List.cons_append, List.cons.injEq]
    refine ⟨rfl, ?_⟩
    simp only [seenUntil, ht, List.cons_append, List.tail_cons]
    cases hb' : v.tokens with
    | nil =>
      -- the end of the input has been asked for last of all
      have hh : v.head = u.last := by simp [head, hb', hm.last]
      rw [hh, List.takeWhile_append_of_pos]
      · simp
      · intro t hin
        exact decide_eq_true (hb t (by simp [hin]))
    | cons b vs =>
      have hh : v.head = b := by simp [head, hb']
      rw [hb'] at hv hbehind
      rw [hh, List.takeWhile_append_of_pos]
      · simp [takeWhile_requests hv]
      · intro t hin
        exact decide_eq_true (Nat.le_of_lt (hbehind t hin b List.mem_cons_self))

end Upcoming

/-- What a turn may do: skip a semicolon; read a form, whose tokens it takes; or fail to read one.
A turn that fails takes the tokens that the form takes and one more, which shows the fault. -/
inductive Turn.Sound : Turn → Prop where
  | semicolon {p : Parser} {t : Scanned} :
    t.token.isChar ';' = true → p.upcoming.Moves [t] p.next.upcoming →
      Sound ⟨p, p.next, [t], none⟩
  | success {p q : Parser} {n : Node} {span : List Scanned} :
    p.upcoming.head.token.isChar ';' = false →
      p.form (.ofLexeme p.upcoming.lexeme) = (.ok n, q) → p.upcoming.Moves span q.upcoming →
      span ≠ [] → Sound ⟨p, q, span, some ⟨.ofLexeme p.upcoming.lexeme, .ok n⟩⟩
  | failure {p q : Parser} {f : Failure} {us : List Scanned} :
    p.upcoming.head.token.isChar ';' = false →
      p.form (.ofLexeme p.upcoming.lexeme) = (.error f, q) → p.upcoming.Moves us q.upcoming →
      q.upcoming.head = f.token → f.diagnostic.location = some f.token.token.location →
      p.upcoming.tokens ≠ [] →
      Sound ⟨p, q.next, us ++ [f.token], some ⟨.ofLexeme p.upcoming.lexeme, .error f⟩⟩

namespace Session

variable {s : Session}

/-! ## What a step shows -/

@[simp] theorem parser_check (s : Session) : s.check.2.parser = s.parser := by
  unfold check
  split <;> rfl

@[simp] theorem collector_check (s : Session) : s.check.2.collector = s.collector := by
  unfold check
  split <;> rfl

@[simp] theorem scans_check (s : Session) : Event.scans s.check.1 = [] := by
  unfold check
  split <;> rfl

@[simp] theorem results_check (s : Session) : Event.results s.check.1 = [] := by
  unfold check
  split <;> rfl

@[simp] theorem scans_seenBetween (p q : Parser) :
    Event.scans (seenBetween p q) = p.upcoming.seenUntil q.upcoming := by
  simp only [Event.scans, seenBetween, List.filterMap_map]
  exact List.filterMap_some

@[simp] theorem results_seenBetween (p q : Parser) : Event.results (seenBetween p q) = [] := by
  simp only [Event.results, seenBetween, List.filterMap_map, List.filterMap_eq_nil_iff]
  intro t _
  rfl

@[simp] theorem scans_success (kind : FormKind) (n : Node) :
    Event.scans (success kind n) = [] := by
  cases kind <;> rfl

@[simp] theorem results_success (kind : FormKind) (n : Node) :
    Event.results (success kind n) = [⟨kind, .ok n⟩] := by
  cases kind <;> rfl

/-! ## One turn -/

variable {t : Scanned} {ts : List Scanned} {q : Parser}

theorem step_of_end (hp : s.phase = .ready) (ht : s.tokens = []) :
    s.step = ([.prompted s.parser.requests], { s with phase := .finished }) := by
  simp only [step, hp, turn, ht]
  rfl

theorem step_of_suspended (h : s.phase = .suspended) : s.step = s.check := by
  simp only [step, h]

theorem step_of_semicolon (hp : s.phase = .ready) (ht : s.tokens = t :: ts)
    (hs : t.token.isChar ';' = true) :
    s.step = after [.prompted s.parser.requests, .scanned s.skip.parser.upcoming.head]
      s.skip.check := by
  simp only [step, hp, turn, ht, hs, if_true]
  rfl

theorem step_of_ok {n : Node} (hp : s.phase = .ready) (ht : s.tokens = t :: ts)
    (hs : t.token.isChar ';' = false)
    (hf : s.parser.form (.ofLexeme t.token.lexeme) = (.ok n, q)) :
    s.step = ([.prompted s.parser.requests] ++
        (seenBetween s.parser q ++ success (.ofLexeme t.token.lexeme) n),
      { s with parser := q, phase := .suspended }) := by
  simp only [step, hp, turn, ht, hs, Bool.false_eq_true, if_false, attempt, hf]
  rfl

theorem step_of_error {f : Failure} (hp : s.phase = .ready) (ht : s.tokens = t :: ts)
    (hs : t.token.isChar ';' = false)
    (hf : s.parser.form (.ofLexeme t.token.lexeme) = (.error f, q)) :
    s.step = ([.prompted s.parser.requests] ++
        (seenBetween s.parser q ++ [.recovering f, .scanned q.next.upcoming.head,
          .yielded ⟨.ofLexeme t.token.lexeme, .error f⟩]),
      { parser := q.next, collector := s.collector.add f.diagnostic, phase := .suspended }) := by
  simp only [step, hp, turn, ht, hs, Bool.false_eq_true, if_false, attempt, hf]
  rfl

theorem step_phase_of_form (hp : s.phase = .ready) (ht : s.tokens = t :: ts)
    (hs : t.token.isChar ';' = false) : s.step.2.phase = .suspended := by
  simp only [step, hp, turn, ht, hs, Bool.false_eq_true, if_false]
  exact s.attempt_phase _

/-- A turn, with what its step shows of it and what it leaves to the collector. -/
structure Takes (s : Session) (τ : Turn) : Prop where
  sound : τ.Sound
  before : τ.before = s.parser
  after : τ.after = s.step.2.parser
  results : Event.results s.step.1 = τ.result.toList
  scans : s.parser.upcoming.head :: Event.scans s.step.1 = τ.span ++ [τ.after.upcoming.head]
  diagnostics : s.step.2.collector = τ.failure?.toList.foldl (fun c f => c.add f.diagnostic) s.collector

theorem takes_semicolon (hp : s.phase = .ready) (ht : s.tokens = t :: ts)
    (hs : t.token.isChar ';' = true) : s.Takes ⟨s.parser, s.parser.next, [t], none⟩ := by
  have hm := s.parser.upcoming.moves_advance
  rw [show s.parser.upcoming.tokens = t :: ts from ht] at hm
  have hstep := step_of_semicolon hp ht hs
  have hscans : Event.scans s.step.1 = [s.parser.next.upcoming.head] := by
    rw [hstep, after, Event.scans_append, scans_check]
    rfl
  have hresults : Event.results s.step.1 = [] := by
    rw [hstep, after, Event.results_append, results_check]
    rfl
  refine ⟨.semicolon hs hm, rfl, ?_, hresults, ?_, ?_⟩
  · rw [hstep, after, parser_check]
    rfl
  · rw [hscans, Upcoming.head_of_tokens ht]
    rfl
  · rw [hstep, after, collector_check]
    rfl

theorem upcoming_tokens_ne_nil (ht : s.tokens = t :: ts) : s.parser.upcoming.tokens ≠ [] := by
  rw [show s.parser.upcoming.tokens = t :: ts from ht]
  exact List.cons_ne_nil t ts

/-- Reading a form one sees the tokens that it takes, but for the first, and the one behind them. -/
theorem exists_moves_form {kind : FormKind} {x : Except Failure Node}
    (ho : s.parser.upcoming.Ordered) (ht : s.tokens = t :: ts) (hf : s.parser.form kind = (x, q)) :
    ∃ us, s.parser.upcoming.Moves us q.upcoming ∧
      s.parser.upcoming.head :: s.parser.upcoming.seenUntil q.upcoming = us ++ [q.upcoming.head] := by
  obtain ⟨us, hm⟩ := s.parser.form_moves kind
  rw [hf] at hm
  exact ⟨us, hm, ho.cons_seenUntil hm (upcoming_tokens_ne_nil ht)⟩

theorem takes_success {n : Node} (ho : s.parser.upcoming.Ordered) (hp : s.phase = .ready)
    (ht : s.tokens = t :: ts) (hs : t.token.isChar ';' = false)
    (hf : s.parser.form (.ofLexeme t.token.lexeme) = (.ok n, q)) :
    ∃ span, s.Takes ⟨s.parser, q, span, some ⟨.ofLexeme t.token.lexeme, .ok n⟩⟩ := by
  obtain ⟨span, hm, hseen⟩ := exists_moves_form ho ht hf
  have hspan : span ≠ [] := by
    have hlt := Parser.form_length_lt (upcoming_tokens_ne_nil ht) (congrArg Prod.fst hf)
    rw [hf] at hlt
    rintro rfl
    simp [hm.tokens] at hlt
  have hstep := step_of_ok hp ht hs hf
  have hl : t.token.lexeme = s.parser.upcoming.lexeme := by
    rw [Upcoming.lexeme_of_tokens ht]
  refine ⟨span, ?_, rfl, ?_, ?_, ?_, ?_⟩
  · rw [hl] at hf ⊢
    exact .success (by rwa [Upcoming.head_of_tokens ht]) hf hm hspan
  · rw [hstep]
  · rw [hstep, Event.results_append, Event.results_append, results_seenBetween, results_success]
    rfl
  · rw [hstep, Event.scans_append, Event.scans_append, scans_seenBetween, scans_success,
      List.append_nil, ← hseen]
    rfl
  · rw [hstep]
    rfl

theorem takes_failure {f : Failure} (ho : s.parser.upcoming.Ordered) (hp : s.phase = .ready)
    (ht : s.tokens = t :: ts) (hs : t.token.isChar ';' = false)
    (hf : s.parser.form (.ofLexeme t.token.lexeme) = (.error f, q)) :
    ∃ span, s.Takes ⟨s.parser, q.next, span, some ⟨.ofLexeme t.token.lexeme, .error f⟩⟩ := by
  obtain ⟨us, hm, hseen⟩ := exists_moves_form ho ht hf
  have htoken := Parser.form_error (congrArg Prod.fst hf)
  rw [hf] at htoken
  have hstep := step_of_error hp ht hs hf
  have hl : t.token.lexeme = s.parser.upcoming.lexeme := by
    rw [Upcoming.lexeme_of_tokens ht]
  refine ⟨us ++ [f.token], ?_, rfl, ?_, ?_, ?_, ?_⟩
  · rw [hl] at hf ⊢
    exact .failure (by rwa [Upcoming.head_of_tokens ht]) hf hm htoken.symm rfl
      (upcoming_tokens_ne_nil ht)
  · rw [hstep]
  · rw [hstep, Event.results_append, Event.results_append, results_seenBetween]
    rfl
  · -- the token behind the one that shows the fault is seen as well
    rw [hstep, Event.scans_append, Event.scans_append, scans_seenBetween, htoken, ← hseen]
    rfl
  · rw [hstep]
    rfl

/-- A session that is ready in front of a token takes a turn. -/
theorem exists_takes (ho : s.parser.upcoming.Ordered) (hp : s.phase = .ready)
    (ht : s.tokens = t :: ts) : ∃ τ, s.Takes τ := by
  by_cases hs : t.token.isChar ';' = true
  · exact ⟨_, takes_semicolon hp ht hs⟩
  · rw [Bool.not_eq_true] at hs
    rcases hf : s.parser.form (.ofLexeme t.token.lexeme) with ⟨f | n, q⟩
    · exact (takes_failure ho hp ht hs hf).imp' _ fun _ h => h
    · exact (takes_success ho hp ht hs hf).imp' _ fun _ h => h

/-- The turn that is made out from what a step shows is the one that it takes. -/
theorem Takes.turn?_eq {τ : Turn} (h : s.Takes τ) (hp : s.phase = .ready) (hne : s.tokens ≠ []) :
    s.turn? = some τ := by
  obtain ⟨before, after, span, result⟩ := τ
  obtain ⟨-, rfl, rfl, hr, hs, -⟩ := h
  rw [turn?, if_pos ⟨hp, hne⟩, hr, hs, List.dropLast_concat]
  cases result <;> rfl

end Session

end OperatorGrammar
