import OperatorGrammar.Proofs.Turn.Stop

/-!
What a program comes to. Its trees are those of all forms of the input, or else there is a report;
but if the greatest number of errors is not positive, the run ends with its first turn, and what is
behind that is left out. Main statement: `Session.start_returns`.
-/

namespace OperatorGrammar

namespace FormResult

/-- Trees are all that results have exactly if none of them is a failure. -/
theorem map_outcome_eq_iff {rs : List FormResult} {ns : List Node} :
    rs.map outcome = ns.map .ok ↔
      rs.filterMap failure? = [] ∧ rs.filterMap (fun r => r.outcome.toOption) = ns := by
  induction rs generalizing ns with
  | nil => cases ns <;> simp
  | cons r rs ih =>
    obtain ⟨kind, f | n⟩ := r
    · cases ns <;> simp [failure?]
    · cases ns with
      | nil => simp [failure?, Except.toOption]
      | cons n' ns => simp [failure?, Except.toOption, ih, and_left_comm]

/-- Results are trees if they are so up to a number of failures. -/
theorem map_outcome_untilFailures_eq_iff {k : Nat} (h : 1 ≤ k) {rs : List FormResult}
    {ns : List Node} :
    (untilFailures k rs).map outcome = ns.map .ok ↔ rs.map outcome = ns.map .ok := by
  have hlength := length_failures_untilFailures k rs
  by_cases hrs : (rs.filterMap failure?).length < k
  · rw [untilFailures_of_lt hrs]
  · -- there is a failure among the results, and one among those up to the number
    have hfailures {l : List FormResult} (hl : 0 < (l.filterMap failure?).length) :
        ¬ l.map outcome = ns.map .ok := by
      rw [map_outcome_eq_iff]
      exact fun hn => absurd (congrArg List.length hn.1) (Nat.ne_of_gt hl)
    exact iff_of_false (hfailures (by omega)) (hfailures (by omega))

end FormResult

namespace Session

variable {s : Session} {R : Rules} {maxErrors : Int} {file : String} {source : Source}

/-- The results that count for a program under a greatest number of errors: all of them, or, if the
number is not positive, those of the first turn. -/
def counted (s : Session) (maxErrors : Int) : List FormResult :=
  if 1 ≤ maxErrors then s.results else (s.turns.take 1).filterMap Turn.result

/-- A program has as its trees those of some results, if none of them is a failure. Otherwise there
is a report. -/
structure Returns (s : Session) (rs : List FormResult) : Prop where
  trees : ∀ ns, s.program = .ok ns ↔ rs.map FormResult.outcome = ns.map .ok
  report : (∃ r ∈ rs, ∃ f, r.outcome = .error f) →
    ∃ text, s.program = .error ⟨.report text none, none, none⟩

/-- A program that has no trees has a report. -/
theorem program_eq_error (h : ∀ ns, s.program ≠ .ok ns) :
    ∃ text, s.program = .error ⟨.report text none, none, none⟩ := by
  unfold program at h ⊢
  dsimp only at h ⊢
  cases hc : s.drain.2.collector.combined? with
  | none =>
    rw [hc] at h
    exact absurd rfl (h _)
  | some d =>
    unfold Collector.combined? at hc
    split at hc
    · exact ⟨_, congrArg Except.error (Option.some.inj hc).symm⟩
    · cases hc

theorem returns_of_trees {rs : List FormResult}
    (h : ∀ ns, s.program = .ok ns ↔ rs.map FormResult.outcome = ns.map .ok) : s.Returns rs := by
  refine ⟨h, ?_⟩
  rintro ⟨r, hr, f, hf⟩
  apply program_eq_error
  intro ns hns
  -- a failure is none of the trees
  have hmem : (.error f : Except Failure Node) ∈ ns.map Except.ok := by
    rw [← (h ns).1 hns, ← hf]
    exact List.mem_map_of_mem hr
  obtain ⟨n, -, hn⟩ := List.mem_map.1 hmem
  cases hn

/-- The trees of a program are those of the results that have been handed out. -/
theorem start_program_ok_iff (ho : (Upcoming.ofSource file source).Ordered) (ns : List Node) :
    (start R maxErrors file source).program = .ok ns ↔
      (start R maxErrors file source).results.map FormResult.outcome = ns.map .ok := by
  rw [program_eq_ok_iff, FormResult.map_outcome_eq_iff, start_diagnostics ho, filterMap_failure?,
    ← start_results ho, List.map_eq_nil_iff]
  rfl

/-! ## A number of errors that is not positive -/

/-- Where enough errors have been noted, a turn in front of a token is the last. -/
theorem step_phase_of_shouldStop (hp : s.phase = .ready) (hw : s.collector.shouldStop = true)
    (hne : s.tokens ≠ []) : s.step.2.phase = .suspended ∨ s.step.2.phase = .finished := by
  obtain ⟨t, ts, ht⟩ := List.exists_cons_of_ne_nil hne
  by_cases hs : t.token.isChar ';' = true
  · right
    rw [step_of_semicolon hp ht hs, check_of_shouldStop (s := s.skip) hw]
    rfl
  · rw [Bool.not_eq_true] at hs
    exact .inl (step_phase_of_form hp ht hs)

theorem drain_results_of_stopped (hp : s.phase = .suspended ∨ s.phase = .finished)
    (hw : s.collector.shouldStop = true) : Event.results s.drain.1 = [] := by
  rcases hp with hp | hp
  · rw [drain_of_step (by simp [hp]), step_of_suspended hp, check_of_shouldStop hw,
      drain_of_finished rfl]
    rfl
  · rw [drain_of_finished hp]
    rfl

/-- A session that has noted enough errors ends with the turn that it is in front of. -/
theorem drain_results_of_shouldStop (hp : s.phase = .ready)
    (hw : s.collector.shouldStop = true) :
    Event.results s.drain.1 = if s.tokens = [] then [] else s.parser.turn.1.toList := by
  by_cases ht : s.tokens = []
  · rw [if_pos ht, drain_of_step (by simp [hp]), step_of_end hp ht, drain_of_finished rfl]
    rfl
  · obtain ⟨hresults, -, hcollector⟩ := step_turn hp ht
    -- more errors are enough, too
    have hstop : s.step.2.collector.shouldStop = true := by
      rw [← Collector.left_eq_zero_iff, hcollector, Collector.left_foldl_add,
        s.collector.left_eq_zero_iff.2 hw, Nat.zero_sub]
    rw [if_neg ht, results_drain_of_step (by simp [hp]), hresults,
      drain_results_of_stopped (step_phase_of_shouldStop hp hw ht) hstop, List.append_nil]

/-- What the first turn of a run gives. -/
theorem turns_take_one (ho : s.parser.upcoming.Ordered) (hp : s.phase = .ready) :
    (s.turns.take 1).filterMap Turn.result =
      if s.tokens = [] then [] else s.parser.turn.1.toList := by
  by_cases ht : s.tokens = []
  · rw [if_pos ht, turns_of_step (by simp [hp]), turn?_eq_none (.inr ht), step_of_end hp ht,
      turns_of_finished rfl]
    rfl
  · obtain ⟨t, ts, hts⟩ := List.exists_cons_of_ne_nil ht
    obtain ⟨τ, hτ⟩ := exists_takes ho hp hts
    have hturn := hτ.sound.turn_eq
    rw [hτ.before] at hturn
    rw [if_neg ht, turns_of_step (by simp [hp]), hτ.turn?_eq hp ht, hturn]
    cases hr : τ.result <;> simp [hr]

/-! ## From the start -/

theorem start_program_of_pos (h : 1 ≤ maxErrors) (ho : (Upcoming.ofSource file source).Ordered)
    (ns : List Node) :
    (start R maxErrors file source).program = .ok ns ↔
      (Parser.start R file source).prime.forms.map FormResult.outcome = ns.map .ok := by
  obtain ⟨k, rfl⟩ : ∃ k : Nat, maxErrors = k := ⟨maxErrors.toNat, by omega⟩
  have hk : 1 ≤ k := by omega
  rw [start_program_ok_iff ho, start_results_eq_untilFailures R file source hk,
    FormResult.map_outcome_untilFailures_eq_iff hk]

/-- A run whose greatest number of errors is not positive ends with its first turn. -/
theorem start_results_of_one_turn (R : Rules) (file : String) (source : Source)
    (h : ¬ 1 ≤ maxErrors) :
    (start R maxErrors file source).results =
      if (Upcoming.ofSource file source).tokens = [] then []
      else (Parser.start R file source).prime.turn.1.toList := by
  have hw : (primed R maxErrors file source).collector.shouldStop = true := by
    show decide (maxErrors ≤ (0 : Nat)) = true
    rw [decide_eq_true_eq]
    omega
  rw [results, start_drain, after, Event.results_append,
    drain_results_of_shouldStop (s := primed R maxErrors file source) rfl hw]
  rfl

/-- It hands out what the first of the turns under any other number gives. -/
theorem start_results_of_not_pos (h : ¬ 1 ≤ maxErrors)
    (ho : (Upcoming.ofSource file source).Ordered) (m : Int) :
    (start R maxErrors file source).results =
      ((start R m file source).turns.take 1).filterMap Turn.result := by
  rw [start_turns, turns_take_one (s := primed R m file source) ho rfl]
  exact start_results_of_one_turn R file source h

/-- A program has as its trees those of all forms of the input, and if one of them fails there is a
report; if the greatest number of errors is not positive, this is so of the first turn only. All
forms are what a run hands out whose greatest number of errors is out of reach, as one always is. -/
theorem start_returns (R : Rules) (maxErrors : Int) (file : String)
    (answers : List (Option Char)) (remembersEnd : Bool) :
    (∃ m, (start R m file (.ofAnswers answers remembersEnd)).IsUnlimited) ∧
      ∀ m, (start R m file (.ofAnswers answers remembersEnd)).IsUnlimited →
        (start R maxErrors file (.ofAnswers answers remembersEnd)).Returns
          ((start R m file (.ofAnswers answers remembersEnd)).counted maxErrors) := by
  have ho := Upcoming.ofAnswers_ordered file answers remembersEnd
  generalize Source.ofAnswers answers remembersEnd = source at ho ⊢
  refine ⟨exists_isUnlimited R ho, ?_⟩
  intro m hm
  apply returns_of_trees
  intro ns
  unfold counted
  by_cases h : 1 ≤ maxErrors
  · rw [if_pos h, start_results_eq_forms ho hm, start_program_of_pos h ho]
  · rw [if_neg h, start_program_ok_iff ho, start_results_of_not_pos h ho m]

/-- A program of which only the first of two forms counts. -/
theorem returns_first_of_two :
    (start ⟨.standard, 256, true⟩ 100 "p" (.ofAnswers ("1 2".toList.map some) false)).IsUnlimited ∧
      (start ⟨.standard, 256, true⟩ 0 "p" (.ofAnswers ("1 2".toList.map some) false)).Returns
        ((start ⟨.standard, 256, true⟩ 100 "p"
          (.ofAnswers ("1 2".toList.map some) false)).counted 0) := by
  have h : (start ⟨.standard, 256, true⟩ 100 "p"
      (.ofAnswers ("1 2".toList.map some) false)).IsUnlimited := by
    unfold IsUnlimited
    decide +kernel
  exact ⟨h, (start_returns _ _ _ _ _).2 _ h⟩

/-- Of two forms neither fails, but the trees of the program are not those of both. -/
theorem program_leaves_out_form :
    (start ⟨.standard, 256, true⟩ 100 "p" (.ofAnswers ("1 2".toList.map some) false)).IsUnlimited ∧
      ¬ ∀ ns, (start ⟨.standard, 256, true⟩ 0 "p"
            (.ofAnswers ("1 2".toList.map some) false)).program = .ok ns ↔
        (start ⟨.standard, 256, true⟩ 100 "p"
          (.ofAnswers ("1 2".toList.map some) false)).results.map FormResult.outcome =
            ns.map .ok := by
  constructor
  · unfold IsUnlimited
    decide +kernel
  · intro h
    have hprogram : (start ⟨.standard, 256, true⟩ 0 "p"
        (.ofAnswers ("1 2".toList.map some) false)).program.toOption.map List.length = some 1 := by
      decide +kernel
    have hresults : (start ⟨.standard, 256, true⟩ 100 "p"
        (.ofAnswers ("1 2".toList.map some) false)).results.length = 2 := by
      decide +kernel
    cases hp : (start ⟨.standard, 256, true⟩ 0 "p"
        (.ofAnswers ("1 2".toList.map some) false)).program with
    | error d =>
      rw [hp] at hprogram
      cases hprogram
    | ok ns =>
      rw [hp] at hprogram
      have hlength : ns.length = 1 := Option.some.inj hprogram
      have htrees := congrArg List.length ((h ns).1 hp)
      rw [List.length_map, List.length_map, hresults, hlength] at htrees
      cases htrees

end Session

end OperatorGrammar
