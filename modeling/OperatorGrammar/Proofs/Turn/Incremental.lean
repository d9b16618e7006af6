import OperatorGrammar.Proofs.Scanning.Front
import OperatorGrammar.Proofs.Turn.Prompts
import OperatorGrammar.Proofs.Turn.Restart

/-!
Runs on an input that is still coming in. What a run has shown by the time that a result is handed
out depends on the answers to the requests made by then and on nothing else, and each turn prompts
once, before it asks for anything. So it does not matter that the answers of a source are a finite
list which is scanned up front: a source that never ends, or whose answers depend on what has been
shown, has given only a front of them when a result is handed out, and the run on that front shows
what it has shown. Main statements: `Session.step_sameWithin`, what one step keeps, and
`Session.start_incremental`.
-/

namespace OperatorGrammar

variable {n : Nat}

/-! ## One form -/

namespace Parser

variable {p q : Parser} {v : Upcoming} {x : Except Failure Node}

/-- A form that is read with so many requests is read alike from an input with the same tokens, and
as much is seen of it. -/
theorem form_sameWithin (hne : p.upcoming.tokens ≠ []) (ho : p.upcoming.Ordered) (ho' : v.Ordered)
    (h : p.upcoming.SameWithin n v) {kind : FormKind} (hf : p.form kind = (x, q))
    (hn : q.upcoming.head.requests ≤ n) :
    ∃ w, { p with upcoming := v }.form kind = (x, { q with upcoming := w }) ∧
      q.upcoming.SameWithin n w ∧ v.seenUntil w = p.upcoming.seenUntil q.upcoming := by
  obtain ⟨us, hm, hl⟩ := form_local hne kind
  have herror : ∀ f, (p.form kind).1 = .error f → f.token = (p.form kind).2.upcoming.head :=
    fun f => form_error
  rw [hf] at hm hl herror
  obtain ⟨w, hw, hsame, hhead, hfirst⟩ := h.moves ho hm hn
  obtain ⟨hstart, hstart'⟩ := h.head_eq ho (Nat.le_trans (ho.requests_le hm) hn)
  have hq : q = { p with upcoming := q.upcoming } := by
    have hself := hl p.upcoming q.upcoming hm (Upcoming.alike_of_head? rfl)
    rw [show ({ p with upcoming := p.upcoming } : Parser) = p from rfl, hf] at hself
    exact congrArg Prod.snd hself
  have hne' : v.tokens ≠ [] := by
    rwa [Ne, ← List.head?_eq_none_iff, hstart', List.head?_eq_none_iff]
  refine ⟨w, ?_, hsame, ?_⟩
  · rw [hl v w hw (Upcoming.alike_of_head? hfirst), hhead]
    refine Prod.ext ?_ (by rw [hq])
    cases x with
    | ok b => rfl
    | error f =>
      rw [failAt_error, ← herror f rfl]
  · -- the tokens that are seen are those that the form takes and the one behind them
    have hseen := ho.cons_seenUntil hm hne
    have hseen' := ho'.cons_seenUntil hw hne'
    rw [hhead, ← hseen, hstart] at hseen'
    exact (List.cons.inj hseen').2

end Parser

/-! ## Sessions -/

namespace Session

variable {s s' : Session}

/-- A session over another input. -/
def withUpcoming (s : Session) (u : Upcoming) : Session :=
  { s with parser := { s.parser with upcoming := u } }

/-- Sessions that are alike but for tokens that need more than so many requests. -/
structure SameWithin (n : Nat) (s s' : Session) : Prop where
  keeps : s' = s.withUpcoming s'.parser.upcoming
  upcoming : s.parser.upcoming.SameWithin n s'.parser.upcoming
  ordered : s.parser.upcoming.Ordered
  ordered' : s'.parser.upcoming.Ordered
  primable : s.IsPrimable

theorem SameWithin.phase (h : SameWithin n s s') : s'.phase = s.phase := by
  rw [h.keeps]
  rfl

theorem SameWithin.requests (h : SameWithin n s s') (hn : s.parser.requests ≤ n) :
    s'.parser.requests = s.parser.requests := by
  have hprimed : s'.parser.primed = s.parser.primed := by
    rw [h.keeps]
    rfl
  rw [Parser.requests] at hn
  rw [Parser.requests, Parser.requests, hprimed]
  split
  · rename_i hp
    rw [if_pos hp] at hn
    rw [(h.upcoming.head_eq h.ordered hn).1]
  · rfl

theorem step_phase_ne_fresh (s : Session) : s.step.2.phase ≠ .fresh := by
  by_cases hp : s.phase = .fresh
  · simp only [step, hp, prime]
    intro h
    cases h
  · exact (step_phase hp).1

/-- The first token has been asked for once a step has been taken. -/
theorem step_primed (h : s.IsPrimable) : s.step.2.parser.primed = true :=
  (step_handsOn h).primable.resolve_left s.step_phase_ne_fresh

theorem step_moves (ho : s.parser.upcoming.Ordered) :
    ∃ us, s.parser.upcoming.Moves us s.step.2.parser.upcoming := by
  by_cases hp : s.phase = .fresh
  · simp only [step, hp]
    exact ⟨[], .refl _⟩
  · exact (step_walks ho hp).walk.moves

theorem requests_of_primed (h : s.parser.primed = true) :
    s.parser.requests = s.parser.upcoming.head.requests := by
  rw [Parser.requests, if_pos h]

/-- No step takes a request back. -/
theorem requests_le_step (ho : s.parser.upcoming.Ordered) (h : s.IsPrimable) :
    s.parser.requests ≤ s.step.2.parser.requests := by
  obtain ⟨us, hm⟩ := step_moves ho
  rw [requests_of_primed (step_primed h), Parser.requests]
  split
  · exact ho.requests_le hm
  · exact Nat.zero_le _

theorem check_withUpcoming (s : Session) (v : Upcoming) :
    (s.withUpcoming v).check = (s.check.1, s.check.2.withUpcoming v) := by
  unfold check
  show (if s.collector.shouldStop then _ else _) = _
  split <;> rfl

theorem requests_withUpcoming {v : Upcoming} (h : v.head = s.parser.upcoming.head) :
    (s.withUpcoming v).parser.requests = s.parser.requests := by
  simp only [Parser.requests, withUpcoming, h]

/-- The attempt of a form goes the same way over an input with the same tokens. -/
theorem step_withUpcoming_of_form {v : Upcoming} {t : Scanned} {ts : List Scanned}
    (h : s.parser.upcoming.SameWithin n v) (ho : s.parser.upcoming.Ordered) (ho' : v.Ordered)
    (hp : s.phase = .ready) (ht : s.tokens = t :: ts) (hs : t.token.isChar ';' = false)
    (hn : s.step.2.parser.upcoming.head.requests ≤ n) :
    ∃ w, (s.withUpcoming v).step = (s.step.1, s.step.2.withUpcoming w) ∧
      s.step.2.parser.upcoming.SameWithin n w := by
  obtain ⟨us, hm⟩ := step_moves ho
  obtain ⟨hhead, hfirst⟩ := h.head_eq ho (Nat.le_trans (ho.requests_le hm) hn)
  have hrequests := requests_withUpcoming hhead
  have hp' : (s.withUpcoming v).phase = .ready := hp
  obtain ⟨vs, ht'⟩ : ∃ vs, (s.withUpcoming v).tokens = t :: vs :=
    List.head?_eq_some_iff.1 (hfirst.trans (List.head?_eq_some_iff.2 ⟨ts, ht⟩))
  have hne : s.parser.upcoming.tokens ≠ [] := upcoming_tokens_ne_nil ht
  rcases hf : s.parser.form (.ofLexeme t.token.lexeme) with ⟨f | b, q⟩
  · -- behind a failure, the token that shows it is skipped
    rw [step_of_error hp ht hs hf] at hn ⊢
    have hq : q.upcoming.Ordered := by
      obtain ⟨ks, hk⟩ := s.parser.form_moves (.ofLexeme t.token.lexeme)
      rw [hf] at hk
      exact ho.of_moves hk
    have hle := hq.requests_le q.upcoming.moves_advance
    obtain ⟨w, hform, hrest, hseen⟩ :=
      Parser.form_sameWithin hne ho ho' h hf (Nat.le_trans hle hn)
    obtain ⟨hbehind, hnext⟩ := hrest.advance hq hn
    rw [step_of_error hp' ht' hs hform, hrequests]
    refine ⟨w.advance, ?_, hbehind⟩
    simp only [seenBetween, withUpcoming, Parser.next, hseen, hnext]
  · rw [step_of_ok hp ht hs hf] at hn ⊢
    obtain ⟨w, hform, hrest, hseen⟩ := Parser.form_sameWithin hne ho ho' h hf hn
    rw [step_of_ok hp' ht' hs hform, hrequests]
    refine ⟨w, ?_, hrest⟩
    simp only [seenBetween, withUpcoming, hseen]

/-- A step that gets by with so many requests does to a session over an input with the same tokens
what it does to the session at hand. -/
theorem step_withUpcoming {v : Upcoming} (h : s.parser.upcoming.SameWithin n v)
    (ho : s.parser.upcoming.Ordered) (ho' : v.Ordered)
    (hn : s.step.2.parser.upcoming.head.requests ≤ n) :
    ∃ w, (s.withUpcoming v).step = (s.step.1, s.step.2.withUpcoming w) ∧
      s.step.2.parser.upcoming.SameWithin n w := by
  obtain ⟨us, hm⟩ := step_moves ho
  obtain ⟨hhead, hfirst⟩ := h.head_eq ho (Nat.le_trans (ho.requests_le hm) hn)
  have hrequests := requests_withUpcoming hhead
  cases hp : s.phase with
  | fresh =>
    have hp' : (s.withUpcoming v).phase = .fresh := hp
    simp only [step, hp, hp', prime, hrequests]
    refine ⟨v, ?_, h⟩
    simp only [withUpcoming, Parser.prime, hhead]
  | suspended =>
    rw [step_of_suspended hp, step_of_suspended (s := s.withUpcoming v) hp, check_withUpcoming,
      parser_check]
    exact ⟨v, rfl, h⟩
  | finished =>
    rw [step_of_finished hp, step_of_finished (s := s.withUpcoming v) hp]
    exact ⟨v, rfl, h⟩
  | ready =>
    have hp' : (s.withUpcoming v).phase = .ready := hp
    cases ht : s.tokens with
    | nil =>
      have ht' : (s.withUpcoming v).tokens = [] := by
        rw [← List.head?_eq_none_iff] at ht ⊢
        exact hfirst.trans ht
      rw [step_of_end hp ht, step_of_end hp' ht', hrequests]
      exact ⟨v, rfl, h⟩
    | cons t ts =>
      obtain ⟨vs, ht'⟩ : ∃ vs, (s.withUpcoming v).tokens = t :: vs :=
        List.head?_eq_some_iff.1 (hfirst.trans (List.head?_eq_some_iff.2 ⟨ts, ht⟩))
      by_cases hs : t.token.isChar ';' = true
      · rw [step_of_semicolon hp ht hs, after, parser_check] at hn ⊢
        obtain ⟨hrest, hnext⟩ := h.advance ho hn
        have hskip : (s.withUpcoming v).skip = s.skip.withUpcoming v.advance := rfl
        have hseen : (s.withUpcoming v).skip.parser.upcoming.head = s.skip.parser.upcoming.head :=
          hnext
        rw [step_of_semicolon hp' ht' hs, hrequests, hseen, hskip, check_withUpcoming]
        exact ⟨v.advance, rfl, hrest⟩
      · exact step_withUpcoming_of_form h ho ho' hp ht (Bool.not_eq_true _ ▸ hs) hn

/-- What one step keeps. -/
theorem step_sameWithin (h : SameWithin n s s') (hn : s.step.2.parser.requests ≤ n) :
    s'.step.1 = s.step.1 ∧ SameWithin n s.step.2 s'.step.2 := by
  obtain ⟨hkeeps, hsame, ho, ho', hp⟩ := h
  generalize s'.parser.upcoming = v at *
  subst hkeeps
  rw [requests_of_primed (step_primed hp)] at hn
  obtain ⟨w, hstep, hrest⟩ := step_withUpcoming hsame ho ho' hn
  obtain ⟨us, hm⟩ := step_moves ho
  obtain ⟨us', hm'⟩ := step_moves (s := s.withUpcoming v) ho'
  rw [hstep] at hm' ⊢
  exact ⟨rfl, rfl, hrest, ho.of_moves hm, .of_moves ho' hm', (step_handsOn hp).primable⟩

/-! ## Results one by one -/

/-- What holds when the next step hands out a result or ends the run, and is handed back from each
other step, holds of every session. -/
theorem next_induction {motive : Session → Prop}
    (last : ∀ s, s.step.2.phase = .suspended ∨ s.step.2.phase = .finished → motive s)
    (step : ∀ s, s.step.2.phase ≠ .suspended ∧ s.step.2.phase ≠ .finished →
      motive s.step.2 → motive s) (s : Session) : motive s := by
  induction s using run_induction with
  | finished s hp => exact last s (.inr (by rwa [step_of_finished hp]))
  | step s _ ih =>
    by_cases h : s.step.2.phase = .suspended ∨ s.step.2.phase = .finished
    · exact last s h
    · exact step s (not_or.1 h) ih

theorem next_ordered (ho : s.parser.upcoming.Ordered) : s.next.2.parser.upcoming.Ordered := by
  induction s using next_induction with
  | last s hlast =>
    obtain ⟨us, hm⟩ := step_moves ho
    rw [next_of_last_step hlast]
    exact ho.of_moves hm
  | step s hmore ih =>
    obtain ⟨us, hm⟩ := step_moves ho
    rw [next_of_step hmore]
    exact ih (ho.of_moves hm)

/-- Going on to the next result takes no request back. -/
theorem requests_le_next (ho : s.parser.upcoming.Ordered) (h : s.IsPrimable) :
    s.parser.requests ≤ s.next.2.parser.requests := by
  induction s using next_induction with
  | last s hlast =>
    rw [next_of_last_step hlast]
    exact requests_le_step ho h
  | step s hmore ih =>
    obtain ⟨us, hm⟩ := step_moves ho
    rw [next_of_step hmore]
    exact Nat.le_trans (requests_le_step ho h) (ih (ho.of_moves hm) (step_handsOn h).primable)

theorem next_sameWithin (h : SameWithin n s s') (hn : s.next.2.parser.requests ≤ n) :
    s'.next.1 = s.next.1 ∧ SameWithin n s.next.2 s'.next.2 := by
  induction s using next_induction generalizing s' with
  | last s hlast =>
    rw [next_of_last_step hlast] at hn ⊢
    obtain ⟨hevents, hsame⟩ := step_sameWithin h hn
    rw [next_of_last_step (by rwa [hsame.phase])]
    exact ⟨hevents, hsame⟩
  | step s hmore ih =>
    obtain ⟨us, hm⟩ := step_moves h.ordered
    rw [next_of_step hmore] at hn ⊢
    have hle := requests_le_next (h.ordered.of_moves hm) (step_handsOn h.primable).primable
    obtain ⟨hevents, hsame⟩ := step_sameWithin h (Nat.le_trans hle hn)
    obtain ⟨hrest, hlast⟩ := ih hsame hn
    rw [next_of_step (by rwa [hsame.phase]), after, after, hevents, hrest]
    exact ⟨rfl, hlast⟩

/-- Goes on until so many results have been handed out or the session ends. -/
def take : Nat → Session → List Event × Session
  | 0, s => ([], s)
  | k + 1, s => after s.next.1 (take k s.next.2)

theorem requests_le_take (k : Nat) (ho : s.parser.upcoming.Ordered) (h : s.IsPrimable) :
    s.parser.requests ≤ (s.take k).2.parser.requests := by
  induction k generalizing s with
  | zero => exact Nat.le_refl _
  | succ k ih =>
    exact Nat.le_trans (requests_le_next ho h) (ih (next_ordered ho) (next_handsOn h).primable)

/-- What a session does up to a result is done by one that is alike, if it gets by with so many
requests. -/
theorem take_sameWithin (k : Nat) (h : SameWithin n s s')
    (hn : (s.take k).2.parser.requests ≤ n) :
    (s'.take k).1 = (s.take k).1 ∧ SameWithin n (s.take k).2 (s'.take k).2 := by
  induction k generalizing s s' with
  | zero => exact ⟨rfl, h⟩
  | succ k ih =>
    have hle := requests_le_take k (next_ordered h.ordered) (next_handsOn h.primable).primable
    obtain ⟨hevents, hsame⟩ := next_sameWithin h (Nat.le_trans hle hn)
    obtain ⟨hrest, hlast⟩ := ih hsame hn
    rw [take, take, after, after, hevents, hrest]
    exact ⟨rfl, hlast⟩

/-! ## The first results -/

theorem drain_of_next (s : Session) : s.drain = after s.next.1 s.next.2.drain := by
  induction s using next_induction with
  | last s hlast =>
    rw [next_of_last_step hlast]
    by_cases hp : s.phase = .finished
    · rw [step_of_finished hp, drain_of_finished hp]
      rfl
    · exact drain_of_step hp
  | step s hmore ih =>
    have hp : s.phase ≠ .finished := by
      intro hp
      rw [step_of_finished hp] at hmore
      exact hmore.2 hp
    rw [next_of_step hmore, drain_of_step hp, ih]
    simp only [after, List.append_assoc]

/-- A step hands out one result if the session waits behind it, and else none. -/
theorem step_results (s : Session) :
    (s.step.2.phase = .suspended ∧ ∃ r, Event.results s.step.1 = [r]) ∨
      (s.step.2.phase ≠ .suspended ∧ Event.results s.step.1 = []) := by
  have hcheck : ∀ s : Session, s.check.2.phase ≠ .suspended := by
    intro s
    rcases s.check_phase with h | ⟨h, -⟩ <;> simp [h]
  cases hp : s.phase with
  | fresh =>
    refine .inr ?_
    have hready : Phase.ready ≠ .suspended := by decide
    simp only [step, hp, prime]
    cases s.parser.primed <;> exact ⟨hready, rfl⟩
  | suspended =>
    rw [step_of_suspended hp]
    exact .inr ⟨hcheck s, s.results_check⟩
  | finished =>
    rw [step_of_finished hp]
    exact .inr ⟨by simp [hp], rfl⟩
  | ready =>
    cases ht : s.tokens with
    | nil =>
      have hfinished : Phase.finished ≠ .suspended := by decide
      rw [step_of_end hp ht]
      exact .inr ⟨hfinished, rfl⟩
    | cons t ts =>
      by_cases hs : t.token.isChar ';' = true
      · rw [step_of_semicolon hp ht hs]
        refine .inr ⟨hcheck s.skip, ?_⟩
        rw [after, Event.results_append, results_check]
        rfl
      · rw [Bool.not_eq_true] at hs
        have hhead : s.parser.upcoming.head = t := Upcoming.head_of_tokens ht
        refine .inl ⟨step_phase_of_form hp ht hs, ?_⟩
        rw [(step_turn hp (ht ▸ List.cons_ne_nil t ts)).1, Parser.turn_result (by rwa [hhead])]
        exact ⟨_, rfl⟩

/-- The next result is one, unless the session ends. -/
theorem next_result (s : Session) :
    (∃ r, Event.results s.next.1 = [r]) ∨
      (s.next.2.phase = .finished ∧ Event.results s.next.1 = []) := by
  induction s using next_induction with
  | last s hlast =>
    rw [next_of_last_step hlast]
    rcases s.step_results with ⟨-, h⟩ | ⟨hp, h⟩
    · exact .inl h
    · exact .inr ⟨hlast.resolve_left hp, h⟩
  | step s hmore ih =>
    rcases s.step_results with ⟨hp, -⟩ | ⟨-, h⟩
    · exact absurd hp hmore.1
    · rwa [next_of_step hmore, after, Event.results_append, h]

/-- Taking results one by one shows the first events of a run, up to the last of them. -/
theorem take_first (k : Nat) (s : Session) :
    (s.take k).1 <+: s.drain.1 ∧ Event.results (s.take k).1 = s.results.take k := by
  induction k generalizing s with
  | zero => exact ⟨List.nil_prefix, rfl⟩
  | succ k ih =>
    obtain ⟨hfirst, hresults⟩ := ih s.next.2
    rw [take, results, drain_of_next]
    refine ⟨(List.prefix_append_right_inj _).2 hfirst, ?_⟩
    rw [after, after, Event.results_append, Event.results_append, hresults, results]
    rcases s.next_result with ⟨r, hr⟩ | ⟨hp, hr⟩
    · rw [hr]
      rfl
    · rw [hr, drain_of_finished hp]
      simp [Event.results]

/-- Sources that give the same answers to so many requests start sessions that are alike as far as
one comes with these. -/
theorem start_sameWithin (R : Rules) (maxErrors : Int) (file : String)
    {answers answers' : List (Option Char)} {remembersEnd remembersEnd' : Bool}
    (h : ((Source.ofAnswers answers' remembersEnd').readMany n).1 =
      ((Source.ofAnswers answers remembersEnd).readMany n).1) :
    SameWithin n (start R maxErrors file (.ofAnswers answers remembersEnd))
      (start R maxErrors file (.ofAnswers answers' remembersEnd')) :=
  ⟨rfl, Upcoming.ofAnswers_sameWithin file h, Upcoming.ofAnswers_ordered file answers remembersEnd,
    Upcoming.ofAnswers_ordered file answers' remembersEnd', .inl rfl⟩

/-- Up to each result a run depends on the answers to the requests made by then and on nothing else:
where another source gives the same, the run has the same events, the results and the prompts among
them, and makes as many requests. So of a source that never ends it is enough to know its fronts. A
run prompts before its first request and then at the start of each turn. -/
theorem start_incremental (R : Rules) (maxErrors : Int) (file : String)
    (answers : List (Option Char)) (remembersEnd : Bool) :
    let s := start R maxErrors file (.ofAnswers answers remembersEnd)
    (∀ k, (s.take k).1 <+: s.drain.1 ∧ Event.results (s.take k).1 = s.results.take k ∧
      ∀ answers' remembersEnd',
        ((Source.ofAnswers answers' remembersEnd').readMany (s.take k).2.parser.requests).1 =
          ((Source.ofAnswers answers remembersEnd).readMany (s.take k).2.parser.requests).1 →
        let s' := start R maxErrors file (.ofAnswers answers' remembersEnd')
        (s'.take k).1 = (s.take k).1 ∧
          (s'.take k).2.parser.requests = (s.take k).2.parser.requests) ∧
    s.drain.1 = [.prompted 0, .scanned s.parser.upcoming.head] ++ s.step.2.drain.1 ∧
      0 < s.parser.upcoming.head.requests ∧ s.step.2.Prompts ∧ s.turns = s.step.2.turns ∧
      ∀ τ ∈ s.turns, τ.Sound := by
  intro s
  refine ⟨fun k => ?_, start_prompts R maxErrors file answers remembersEnd⟩
  obtain ⟨hfirst, hresults⟩ := take_first k s
  refine ⟨hfirst, hresults, fun answers' remembersEnd' h => ?_⟩
  obtain ⟨hevents, hlast⟩ := take_sameWithin k (start_sameWithin R maxErrors file h) (Nat.le_refl _)
  exact ⟨hevents, hlast.requests (Nat.le_refl _)⟩

/-- The number in front of a semicolon is handed out when four characters have been asked for. -/
theorem incremental_behind_semicolon :
    let s := start ⟨.standard, 256, true⟩ 100 "p" (.ofAnswers ("1 ; x".toList.map some) false)
    let s' := start ⟨.standard, 256, true⟩ 100 "p" (.ofAnswers ("1 ; )(".toList.map some) true)
    ((s.take 1).2.parser.requests = 4 ∧ (Event.results (s.take 1).1).length = 1) ∧
      (s'.take 1).1 = (s.take 1).1 ∧
      (s'.take 1).2.parser.requests = (s.take 1).2.parser.requests := by
  refine ⟨by decide +kernel, ?_⟩
  exact ((start_incremental ⟨.standard, 256, true⟩ 100 "p" ("1 ; x".toList.map some) false).1 1).2.2
    ("1 ; )(".toList.map some) true (by decide +kernel)

end Session

end OperatorGrammar
