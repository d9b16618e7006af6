import Mathlib.Data.List.Chain
import OperatorGrammar.Proofs.Turn

/-!
Runs, cut into turns. A walk is a list of turns of which each starts where the one before ends. The
spans of a walk lie behind each other in what is to come; a token is skipped by a failure only, and
the end of the input only by the last turn. Main statements: `Session.drain_walks`, a run is a walk
and shows what its turns give, and, said of a run from the start, `Session.start_scans` and
`Session.start_results`.
-/

namespace OperatorGrammar

/-- Turns of which each starts where the one before ends. -/
inductive Walk : Parser → List Turn → Parser → Prop where
  | nil (p : Parser) : Walk p [] p
  | cons {τ : Turn} {τs : List Turn} {q : Parser} :
    τ.Sound → Walk τ.after τs q → Walk τ.before (τ :: τs) q

namespace Turn.Sound

variable {τ : Turn}

/-- A turn that ends in front of the end of the input, or that does not fail, takes what it moves
over. One that fails at the end of the input takes that, too. -/
theorem toList (h : τ.Sound) :
    τ.before.upcoming.toList = τ.span ++ τ.after.upcoming.toList ∨
      τ.before.upcoming.toList = τ.span ∧ τ.after.upcoming.tokens = [] := by
  cases h with
  | semicolon _ hm => exact .inl hm.toList
  | success _ _ hm _ => exact .inl hm.toList
  | @failure p q f us _ _ hm ht _ _ =>
    have hl := hm.toList
    -- the token that shows the fault is either one of those to come or the end of the input
    cases hq : q.upcoming.tokens with
    | nil =>
      refine .inr ⟨?_, by simp [Parser.next, hq]⟩
      rw [hl, ← ht, Upcoming.toList, Upcoming.head, hq]
      rfl
    | cons a rest =>
      refine .inl ?_
      have ha : f.token = a := by rw [← ht, Upcoming.head, hq]
      rw [hl, ha]
      simp [Upcoming.toList, Parser.next, hq]

/-- A turn starts in front of a token, which it takes. -/
theorem exists_cons (h : τ.Sound) :
    ∃ t ts us, τ.before.upcoming.tokens = t :: ts ∧ τ.span = t :: us := by
  cases h with
  | semicolon _ hm => exact ⟨_, _, [], hm.tokens, rfl⟩
  | success _ _ hm hne =>
    obtain ⟨t, us, rfl⟩ := List.exists_cons_of_ne_nil hne
    exact ⟨t, _, us, hm.tokens, rfl⟩
  | @failure p q f us _ _ hm ht _ hne =>
    cases us with
    | nil =>
      obtain ⟨t, ts, hp⟩ := List.exists_cons_of_ne_nil hne
      have hq : q.upcoming.tokens = t :: ts := by rw [← hp, hm.tokens, List.nil_append]
      refine ⟨t, ts, [], hp, ?_⟩
      rw [← ht, Upcoming.head, hq]
      rfl
    | cons t us => exact ⟨t, _, us ++ [f.token], hm.tokens, rfl⟩

/-- What is to come behind a turn is what was to come in front of it, less some tokens. -/
theorem moves (h : τ.Sound) : ∃ us, τ.before.upcoming.Moves us τ.after.upcoming := by
  cases h with
  | semicolon _ hm => exact ⟨_, hm⟩
  | success _ _ hm _ => exact ⟨_, hm⟩
  | failure _ _ hm _ _ _ => exact ⟨_, hm.trans (Upcoming.moves_advance _)⟩

theorem length_lt (h : τ.Sound) :
    τ.after.upcoming.tokens.length < τ.before.upcoming.tokens.length := by
  have hl := h.toList
  obtain ⟨t, ts, us, ht, hs⟩ := h.exists_cons
  rcases hl with hl | ⟨-, hl⟩
  · have := congrArg List.length hl
    simp only [Upcoming.toList, hs, List.length_append, List.length_cons, List.length_nil] at this
    omega
  · rw [hl, ht]
    exact Nat.zero_lt_succ _

end Turn.Sound

namespace Walk

variable {p q r : Parser} {τs σs : List Turn}

theorem single {τ : Turn} (h : τ.Sound) : Walk τ.before [τ] τ.after := .cons h (.nil _)

theorem append (h : Walk p τs q) (h' : Walk q σs r) : Walk p (τs ++ σs) r := by
  induction h with
  | nil p => exact h'
  | cons hτ _ ih => exact .cons hτ (ih h')

theorem sound (h : Walk p τs q) : ∀ τ ∈ τs, τ.Sound := by
  induction h with
  | nil p => exact fun τ hτ => absurd hτ List.not_mem_nil
  | cons hτ _ ih => exact List.forall_mem_cons.2 ⟨hτ, ih⟩

theorem moves (h : Walk p τs q) : ∃ us, p.upcoming.Moves us q.upcoming := by
  induction h with
  | nil p => exact ⟨[], .refl _⟩
  | cons hτ _ ih =>
    obtain ⟨us, hu⟩ := hτ.moves
    obtain ⟨vs, hv⟩ := ih
    exact ⟨us ++ vs, hu.trans hv⟩

/-- Nothing can be taken at the end of the input. -/
theorem eq_nil (h : Walk p τs q) (hp : p.upcoming.tokens = []) : τs = [] ∧ p = q := by
  cases h with
  | nil p => exact ⟨rfl, rfl⟩
  | cons hτ _ =>
    obtain ⟨t, ts, us, ht, -⟩ := hτ.exists_cons
    exact absurd (hp.symm.trans ht) (List.cons_ne_nil t ts).symm

/-- The first turn starts where the walk does, and each other turn where the one before ends. -/
theorem chained (h : Walk p τs q) :
    (∀ τ ∈ τs.head?, τ.before = p) ∧ τs.IsChain (fun τ σ => σ.before = τ.after) := by
  induction h with
  | nil p => exact ⟨by simp, .nil⟩
  | @cons τ τs q hτ _ ih =>
    refine ⟨by simp, ?_⟩
    rw [List.isChain_cons]
    exact ⟨ih.1, ih.2⟩

/-- The spans lie behind each other. -/
theorem toList (h : Walk p τs q) :
    p.upcoming.toList = τs.flatMap Turn.span ++ q.upcoming.toList ∨
      p.upcoming.toList = τs.flatMap Turn.span ∧ q.upcoming.tokens = [] := by
  induction h with
  | nil p => exact .inl rfl
  | @cons τ τs q hτ hw ih =>
    rw [List.flatMap_cons]
    -- behind a turn that has taken the end of the input there is no other
    rcases hτ.toList with hl | ⟨hl, he⟩
    · rw [hl]
      rcases ih with ih | ⟨ih, hq⟩
      · exact .inl (by rw [ih, List.append_assoc])
      · exact .inr ⟨by rw [ih], hq⟩
    · obtain ⟨rfl, rfl⟩ := hw.eq_nil he
      exact .inr ⟨by rw [hl, List.flatMap_nil, List.append_nil], he⟩

/-- Each turn takes a token before the end of the input. -/
theorem length_le (h : Walk p τs q) :
    τs.length + q.upcoming.tokens.length ≤ p.upcoming.tokens.length := by
  induction h with
  | nil p => simp
  | cons hτ _ ih =>
    have := hτ.length_lt
    simp only [List.length_cons]
    omega

/-- Only the last turn may take the end of the input. -/
theorem ne_endOfInput (h : Walk p τs q) (ho : p.upcoming.Ordered) :
    ∀ τ ∈ τs.dropLast, ∀ t ∈ τ.span, t.token.lexeme ≠ .endOfInput := by
  induction h with
  | nil p => simp
  | @cons τ τs q hτ hw ih =>
    cases τs with
    | nil => simp
    | cons σ σs =>
      obtain ⟨us, hm⟩ := hτ.moves
      rw [List.dropLast_cons_cons]
      refine List.forall_mem_cons.2 ⟨?_, ih (ho.of_moves hm)⟩
      intro t ht
      -- a token is left behind the span, so the span is part of what comes before the end
      have hσ := (hw.sound σ List.mem_cons_self).exists_cons
      rw [hw.chained.1 σ rfl] at hσ
      obtain ⟨a, as, us, ha, -⟩ := hσ
      rcases hτ.toList with hl | ⟨-, he⟩
      · refine ho.ne_endOfInput t ?_
        have hs : τ.before.upcoming.tokens = τ.span ++ τ.after.upcoming.tokens := by
          rw [Upcoming.toList, Upcoming.toList, ← List.append_assoc] at hl
          exact List.append_inj_left' hl rfl
        rw [hs]
        exact List.mem_append_left _ ht
      · exact absurd (he.symm.trans ha) (List.cons_ne_nil a as).symm

end Walk

/-- A collector keeps what it is given, in order. -/
theorem foldl_add_diagnostics (fs : List Failure) (c : Collector) :
    (fs.foldl (fun c f => c.add f.diagnostic) c).diagnostics =
      c.diagnostics ++ fs.map Failure.diagnostic := by
  induction fs generalizing c with
  | nil => simp
  | cons f fs ih =>
    rw [List.foldl_cons, ih, Collector.add, List.map_cons, List.append_assoc]
    rfl

namespace Session

variable {s s' s'' : Session} {es fs : List Event} {τs σs : List Turn}

/-- From `s` one comes to `s'` by a walk, and the events show what the turns of it give. -/
structure Walks (s : Session) (es : List Event) (τs : List Turn) (s' : Session) : Prop where
  walk : Walk s.parser τs s'.parser
  results : Event.results es = τs.filterMap Turn.result
  scans : s.parser.upcoming.head :: Event.scans es =
    τs.flatMap Turn.span ++ [s'.parser.upcoming.head]
  collector : s'.collector =
    (τs.filterMap Turn.failure?).foldl (fun c f => c.add f.diagnostic) s.collector

theorem Walks.trans (h : Walks s es τs s') (h' : Walks s' fs σs s'') :
    Walks s (es ++ fs) (τs ++ σs) s'' where
  walk := h.walk.append h'.walk
  results := by rw [Event.results_append, h.results, h'.results, List.filterMap_append]
  scans := by
    rw [Event.scans_append, ← List.cons_append, h.scans, List.append_assoc, List.singleton_append,
      h'.scans, List.flatMap_append, List.append_assoc]
  collector := by rw [h'.collector, h.collector, List.filterMap_append, List.foldl_append]

theorem Takes.walks {τ : Turn} (h : s.Takes τ) : Walks s s.step.1 [τ] s.step.2 := by
  obtain ⟨before, after, span, result⟩ := τ
  obtain ⟨hs, rfl, rfl, hr, hc, hd⟩ := h
  refine ⟨.single hs, ?_, by simpa using hc, ?_⟩
  · cases result <;> simpa using hr
  · rw [hd]
    cases hf : Turn.failure? _ <;> simp [hf]

/-- Events that show no turn. -/
theorem walks_nil (hp : s'.parser = s.parser) (hc : s'.collector = s.collector)
    (hr : Event.results es = []) (hs : Event.scans es = []) : Walks s es [] s' where
  walk := hp ▸ .nil _
  results := hr
  scans := by simp [hs, hp]
  collector := hc

/-! ## Whole runs -/

theorem drain_of_finished (h : s.phase = .finished) : s.drain = ([], s) := by
  rw [drain, if_pos h]

theorem drain_of_step (h : s.phase ≠ .finished) : s.drain = after s.step.1 s.step.2.drain := by
  rw [drain, if_neg h]

/-- The results of a run that has a step to take. -/
theorem results_drain_of_step (h : s.phase ≠ .finished) :
    Event.results s.drain.1 = Event.results s.step.1 ++ Event.results s.step.2.drain.1 := by
  rw [drain_of_step h]
  exact Event.results_append _ _

theorem turns_of_finished (h : s.phase = .finished) : s.turns = [] := by
  rw [turns, if_pos h]

theorem turns_of_step (h : s.phase ≠ .finished) : s.turns = s.turn?.toList ++ s.step.2.turns := by
  rw [turns, if_neg h]

/-- What holds when a session has ended and is handed back from each step holds of every session. -/
theorem run_induction {motive : Session → Prop} (finished : ∀ s, s.phase = .finished → motive s)
    (step : ∀ s, s.phase ≠ .finished → motive s.step.2 → motive s) (s : Session) : motive s := by
  -- each step leaves less work, which is an upper bound of the steps to come
  induction hn : s.work using Nat.strongRecOn generalizing s with
  | ind n ih =>
    by_cases h : s.phase = .finished
    · exact finished s h
    · exact step s h (ih _ (hn ▸ step_work_lt h) s.step.2 rfl)

theorem turn?_eq_none (h : s.phase ≠ .ready ∨ s.tokens = []) : s.turn? = none := by
  rw [turn?, if_neg]
  rintro ⟨hp, hne⟩
  exact h.elim (· hp) hne

theorem check_phase (s : Session) :
    s.check.2.phase = .ready ∨
      s.check.2.phase = .finished ∧ s.collector.shouldStop = true ∧
        ∃ n, .stopping n ∈ s.check.1 := by
  unfold check
  split
  · exact .inr ⟨rfl, ‹_›, _, List.mem_singleton_self _⟩
  · exact .inl rfl

/-- What one step does to a session that has asked for the first token. -/
theorem step_walks (ho : s.parser.upcoming.Ordered) (hp : s.phase ≠ .fresh) :
    Walks s s.step.1 s.turn?.toList s.step.2 := by
  cases h : s.phase with
  | fresh => exact absurd h hp
  | ready =>
    cases ht : s.tokens with
    | nil =>
      rw [turn?_eq_none (.inr ht), step_of_end h ht]
      exact walks_nil rfl rfl rfl rfl
    | cons t ts =>
      obtain ⟨τ, hτ⟩ := exists_takes ho h ht
      rw [hτ.turn?_eq h (ht ▸ List.cons_ne_nil t ts)]
      exact hτ.walks
  | suspended =>
    rw [turn?_eq_none (.inl (by simp [h])), step_of_suspended h]
    exact walks_nil s.parser_check s.collector_check s.results_check s.scans_check
  | finished =>
    rw [turn?_eq_none (.inl (by simp [h])), step_of_finished h]
    exact walks_nil rfl rfl rfl rfl

/-- A step does not bring a session back to its start, and it ends one only at the end of the
input or because of too many errors. -/
theorem step_phase (hp : s.phase ≠ .fresh) :
    s.step.2.phase ≠ .fresh ∧
      (s.phase ≠ .finished → s.step.2.phase = .finished →
        s.step.2.tokens = [] ∨
          s.step.2.collector.shouldStop = true ∧ ∃ n, .stopping n ∈ s.step.1) := by
  cases h : s.phase with
  | fresh => exact absurd h hp
  | ready =>
    cases ht : s.tokens with
    | nil =>
      rw [step_of_end h ht]
      exact ⟨nofun, fun _ _ => .inl ht⟩
    | cons t ts =>
      by_cases hs : t.token.isChar ';' = true
      · rw [step_of_semicolon h ht hs]
        rcases s.skip.check_phase with hc | ⟨hc, hw, n, hn⟩
        · simp [after, hc]
        · refine ⟨by simp [after, hc], fun _ _ => .inr ⟨?_, n, List.mem_append_right _ hn⟩⟩
          simpa only [after, collector_check] using hw
      · rw [Bool.not_eq_true] at hs
        simp [step_phase_of_form h ht hs]
  | suspended =>
    rw [step_of_suspended h]
    rcases s.check_phase with hc | ⟨hc, hw, hn⟩
    · simp [hc]
    · exact ⟨by simp [hc], fun _ _ => .inr ⟨by rwa [collector_check], hn⟩⟩
  | finished =>
    rw [step_of_finished h]
    exact ⟨hp, fun hf => absurd rfl hf⟩

/-- A run is a walk, and its events show what the turns of it give. -/
theorem drain_walks (ho : s.parser.upcoming.Ordered) (hp : s.phase ≠ .fresh) :
    Walks s s.drain.1 s.turns s.drain.2 := by
  induction s using run_induction with
  | finished s h =>
    rw [drain_of_finished h, turns_of_finished h]
    exact walks_nil rfl rfl rfl rfl
  | step s h ih =>
    rw [drain_of_step h, turns_of_step h]
    have hs := step_walks ho hp
    obtain ⟨us, hm⟩ := hs.walk.moves
    exact hs.trans (ih (ho.of_moves hm) (step_phase hp).1)

/-- A run that does not stop because of errors comes to the end of the input. -/
theorem drain_tokens (hp : s.phase ≠ .fresh) (hf : s.phase ≠ .finished) :
    s.drain.2.tokens = [] ∨
      s.drain.2.collector.shouldStop = true ∧ ∃ n, .stopping n ∈ s.drain.1 := by
  induction s using run_induction with
  | finished s h => exact absurd h hf
  | step s h ih =>
    rw [drain_of_step h]
    obtain ⟨hfresh, hend⟩ := step_phase hp
    by_cases hs : s.step.2.phase = .finished
    · rw [drain_of_finished hs]
      rcases hend h hs with ht | ⟨hw, n, hn⟩
      · exact .inl ht
      · exact .inr ⟨hw, n, List.mem_append_left _ hn⟩
    · rcases ih hfresh hs with ht | ⟨hw, n, hn⟩
      · exact .inl ht
      · exact .inr ⟨hw, n, List.mem_append_right _ hn⟩

/-! ## From the start -/

variable {R : Rules} {maxErrors : Int} {file : String} {source : Source}

/-- A session that has asked for the first token and done nothing else. -/
def primed (R : Rules) (maxErrors : Int) (file : String) (source : Source) : Session :=
  (start R maxErrors file source).step.2

theorem start_drain : (start R maxErrors file source).drain =
    after [.prompted 0, .scanned (Upcoming.ofSource file source).head]
      (primed R maxErrors file source).drain := by
  rw [drain_of_step (by exact nofun)]
  rfl

theorem start_turns :
    (start R maxErrors file source).turns = (primed R maxErrors file source).turns := by
  rw [turns_of_step (by exact nofun), turn?_eq_none (.inl (by exact nofun))]
  rfl

theorem primed_walks (R : Rules) (maxErrors : Int) (ho : (Upcoming.ofSource file source).Ordered) :
    Walks (primed R maxErrors file source) (primed R maxErrors file source).drain.1
      (primed R maxErrors file source).turns (primed R maxErrors file source).drain.2 :=
  drain_walks ho (by exact nofun)

/-- The tokens that become the lookahead are those of the turns, in order, and one more. -/
theorem start_scans (ho : (Upcoming.ofSource file source).Ordered) :
    Event.scans (start R maxErrors file source).drain.1 =
      (start R maxErrors file source).turns.flatMap Turn.span ++
        [(start R maxErrors file source).drain.2.parser.upcoming.head] := by
  rw [start_turns, start_drain]
  exact (primed_walks R maxErrors ho).scans

/-- The results are those of the turns, in order. -/
theorem start_results (ho : (Upcoming.ofSource file source).Ordered) :
    Event.results (start R maxErrors file source).drain.1 =
      (start R maxErrors file source).turns.filterMap Turn.result := by
  rw [start_turns, start_drain]
  exact (primed_walks R maxErrors ho).results

/-- The errors that are noted are those of the turns that fail, in order. -/
theorem start_diagnostics (ho : (Upcoming.ofSource file source).Ordered) :
    (start R maxErrors file source).drain.2.collector.diagnostics =
      ((start R maxErrors file source).turns.filterMap Turn.failure?).map Failure.diagnostic := by
  rw [start_turns, start_drain]
  have hc := congrArg Collector.diagnostics (primed_walks R maxErrors ho).collector
  rw [foldl_add_diagnostics] at hc
  exact hc

end Session

end OperatorGrammar
