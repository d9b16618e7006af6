import OperatorGrammar.Log
import OperatorGrammar.Proofs.Turn.Forms

/-!
Where a run stops. It hands out the forms of its input up to the one with which too many have
failed, and says so in the log. Main statements: `Session.drain_results`, what is handed out from
any turn on, and `Session.start_truncates`.
-/

namespace OperatorGrammar

/-! ## Results up to a number of failures -/

namespace FormResult

/-- The results up to the one with which so many have failed, or all if fewer fail. -/
def untilFailures : Nat → List FormResult → List FormResult
  | 0, _ | _ + 1, [] => []
  | k + 1, r :: rs => r :: untilFailures (k + 1 - r.failure?.toList.length) rs

/-- The results in `front` are the first of `all`, and no fewer have `k` failures. -/
structure IsShortest (k : Nat) (all front : List FormResult) : Prop where
  first : front <+: all
  failures : (front.filterMap failure?).length = k
  shortest : ∀ rs, rs <+: all → k ≤ (rs.filterMap failure?).length → front <+: rs

variable {k : Nat} {r : FormResult} {rs : List FormResult}

theorem untilFailures_nil (k : Nat) : untilFailures k [] = [] := by
  cases k <;> rfl

theorem untilFailures_cons (h : 0 < k) (r : FormResult) (rs : List FormResult) :
    untilFailures k (r :: rs) = r :: untilFailures (k - r.failure?.toList.length) rs := by
  obtain ⟨k, rfl⟩ : ∃ m, k = m + 1 := ⟨k - 1, by omega⟩
  rfl

theorem length_failures_cons (r : FormResult) (rs : List FormResult) :
    ((r :: rs).filterMap failure?).length =
      r.failure?.toList.length + (rs.filterMap failure?).length := by
  rw [List.filterMap_cons]
  cases r.failure? with
  | none => simp
  | some f =>
    simp only [List.length_cons, Option.toList_some, List.length_nil]
    omega

theorem length_failure?_le (r : FormResult) : r.failure?.toList.length ≤ 1 := by
  cases r.failure? <;> simp

/-- Where fewer fail, nothing is cut off. -/
theorem untilFailures_of_lt (h : (rs.filterMap failure?).length < k) :
    untilFailures k rs = rs := by
  induction rs generalizing k with
  | nil => exact untilFailures_nil k
  | cons r rs ih =>
    rw [length_failures_cons] at h
    rw [untilFailures_cons (by omega), ih (by omega)]

/-- Where as many fail, the last result that is left is the one that makes up the number. -/
theorem untilFailures_isShortest (h : k ≤ (rs.filterMap failure?).length) :
    IsShortest k rs (untilFailures k rs) := by
  induction rs generalizing k with
  | nil =>
    obtain rfl : k = 0 := by simpa using h
    exact ⟨List.nil_prefix, rfl, fun rs _ _ => List.nil_prefix⟩
  | cons r rs ih =>
    by_cases hk : 0 < k
    case neg =>
      obtain rfl : k = 0 := by omega
      exact ⟨List.nil_prefix, rfl, fun rs _ _ => List.nil_prefix⟩
    rw [length_failures_cons] at h
    have hr := r.length_failure?_le
    obtain ⟨hfirst, hfailures, hshortest⟩ := ih (k := k - r.failure?.toList.length) (by omega)
    rw [untilFailures_cons hk]
    constructor
    case first => exact List.cons_prefix_cons.2 ⟨rfl, hfirst⟩
    case failures =>
      rw [length_failures_cons, hfailures]
      omega
    case shortest =>
      intro front hfront hlength
      -- a front with a failure is not empty, so it starts with the same result
      cases front with
      | nil =>
        have : k ≤ 0 := hlength
        omega
      | cons r' front =>
        obtain ⟨rfl, hrest⟩ := List.cons_prefix_cons.1 hfront
        rw [length_failures_cons] at hlength
        exact List.cons_prefix_cons.2 ⟨rfl, hshortest front hrest (by omega)⟩

theorem length_failures_untilFailures (k : Nat) (rs : List FormResult) :
    ((untilFailures k rs).filterMap failure?).length = min k (rs.filterMap failure?).length := by
  by_cases h : (rs.filterMap failure?).length < k
  · rw [untilFailures_of_lt h]
    omega
  · rw [(untilFailures_isShortest (Nat.not_lt.1 h)).failures]
    omega

end FormResult

/-! ## The log -/

namespace Event

theorem records_append (level : LogLevel) (es fs : List Event) :
    records level (es ++ fs) = records level es ++ records level fs := by
  simp [records]

/-- Nothing else is worth a warning than that the session stops. -/
theorem eq_stopping_of_warning {e : Event} {r : LogRecord} (he : e.record? = some r)
    (hr : r.isAtLeast .warning = true) : ∃ n, e = .stopping n := by
  cases e with
  | stopping n => exact ⟨n, rfl⟩
  | scanned t =>
    change t.record? = some r at he
    unfold Scanned.record? at he
    split at he
    · cases he
    · obtain rfl := Option.some.inj he
      exact absurd hr Bool.false_ne_true
  | defined function =>
    unfold record? at he
    dsimp only at he
    split at he
    · obtain rfl := Option.some.inj he
      exact absurd hr Bool.false_ne_true
    · cases he
  | recovering f =>
    obtain rfl := Option.some.inj he
    exact absurd hr Bool.false_ne_true
  | succeeded kind =>
    obtain rfl := Option.some.inj he
    exact absurd hr Bool.false_ne_true
  | prompted n => cases he
  | yielded r => cases he

theorem records_warning_eq_nil {es : List Event} (h : ∀ n, .stopping n ∉ es) :
    records .warning es = [] := by
  rw [records, List.filter_eq_nil_iff]
  intro r hr hw
  obtain ⟨e, he, hr⟩ := List.mem_filterMap.1 hr
  obtain ⟨n, rfl⟩ := eq_stopping_of_warning hr hw
  exact h n he

end Event

namespace Collector

/-- How many more diagnostics are enough. -/
def left (c : Collector) : Nat := (c.maxErrors - c.count).toNat

theorem left_eq_zero_iff (c : Collector) : c.left = 0 ↔ c.shouldStop = true := by
  simp only [left, shouldStop, decide_eq_true_eq]
  omega

theorem left_pos_iff (c : Collector) : 0 < c.left ↔ c.shouldStop = false := by
  rw [Nat.pos_iff_ne_zero, ne_eq, left_eq_zero_iff, Bool.not_eq_true]

theorem left_foldl_add (fs : List Failure) (c : Collector) :
    (fs.foldl (fun c f => c.add f.diagnostic) c).left = c.left - fs.length := by
  rw [left, count, Session.foldl_add_maxErrors, foldl_add_diagnostics]
  simp only [left, count, List.length_append, List.length_map]
  omega

end Collector

namespace Session

variable {s : Session}

/-! ## From any turn on -/

/-- A session that has handed out a result, or that has looked and goes on. -/
def IsUnderWay (s : Session) : Prop :=
  s.phase = .suspended ∨ s.phase = .ready ∧ s.collector.shouldStop = false

theorem check_of_shouldStop (h : s.collector.shouldStop = true) :
    s.check = ([.stopping s.collector.count], { s with phase := .finished }) := by
  simp only [check, h, if_true]

/-- In front of a token a session takes a turn, and is under way behind it. -/
theorem step_isUnderWay (hp : s.phase = .ready) (hw : s.collector.shouldStop = false)
    (hne : s.tokens ≠ []) : s.step.2.IsUnderWay := by
  obtain ⟨t, ts, ht⟩ := List.exists_cons_of_ne_nil hne
  by_cases hs : t.token.isChar ';' = true
  · rw [step_of_semicolon hp ht hs, check_of_not_shouldStop (s := s.skip) hw]
    exact .inr ⟨rfl, hw⟩
  · rw [Bool.not_eq_true] at hs
    exact .inl (step_phase_of_form hp ht hs)

/-- What holds where a run stops, where it comes to the end of the input, and is handed back from a
look at the errors and from a turn, holds of every session that is under way. -/
theorem underWay_induction {motive : Session → Prop}
    (stopped : ∀ s, s.phase = .suspended → s.collector.shouldStop = true → motive s)
    (resumed : ∀ s, s.phase = .suspended → s.collector.shouldStop = false →
      motive { s with phase := .ready } → motive s)
    (ended : ∀ s, s.phase = .ready → s.collector.shouldStop = false → s.tokens = [] → motive s)
    (turned : ∀ s, s.phase = .ready → s.collector.shouldStop = false → s.tokens ≠ [] →
      motive s.step.2 → motive s)
    (s : Session) (h : s.IsUnderWay) : motive s := by
  induction s using run_induction with
  | finished s hp =>
    rcases h with h | ⟨h, -⟩
    all_goals cases h.symm.trans hp
  | step s _ ih =>
    rcases h with hp | ⟨hp, hw⟩
    · rw [step_of_suspended hp] at ih
      by_cases hw : s.collector.shouldStop = true
      · exact stopped s hp hw
      · rw [Bool.not_eq_true] at hw
        rw [check_of_not_shouldStop hw] at ih
        exact resumed s hp hw (ih (.inr ⟨rfl, hw⟩))
    · by_cases ht : s.tokens = []
      · exact ended s hp hw ht
      · exact turned s hp hw ht (ih (step_isUnderWay hp hw ht))

/-- From a turn on the forms are handed out up to the one with which enough have failed. -/
theorem drain_results (h : s.IsUnderWay) :
    Event.results s.drain.1 = FormResult.untilFailures s.collector.left s.parser.forms := by
  refine underWay_induction (motive := fun s =>
    Event.results s.drain.1 = FormResult.untilFailures s.collector.left s.parser.forms)
    ?stopped ?resumed ?ended ?turned s h
  case stopped =>
    intro s hp hw
    have hleft : s.collector.left = 0 := s.collector.left_eq_zero_iff.2 hw
    rw [drain_of_step (by simp [hp]), step_of_suspended hp, check_of_shouldStop hw,
      drain_of_finished rfl, hleft]
    cases s.parser.forms <;> rfl
  case resumed =>
    intro s hp hw ih
    rw [drain_of_step (by simp [hp]), step_of_suspended hp, check_of_not_shouldStop hw]
    exact ih
  case ended =>
    intro s hp _ ht
    rw [drain_of_step (by simp [hp]), step_of_end hp ht, drain_of_finished rfl,
      Parser.forms_of_nil ht, FormResult.untilFailures_nil]
    rfl
  case turned =>
    intro s hp hw hne ih
    obtain ⟨hresults, hparser, hcollector⟩ := step_turn hp hne
    rw [hparser, hcollector, Collector.left_foldl_add] at ih
    rw [results_drain_of_step (by simp [hp]), hresults, ih, Parser.forms_of_turn hne]
    cases s.parser.turn.1 with
    | none => rfl
    | some r => exact (FormResult.untilFailures_cons (s.collector.left_pos_iff.2 hw) r _).symm

/-- An attempt at a form does not look whether enough errors have been noted. -/
theorem stopping_not_mem_step_of_form {t : Scanned} {ts : List Scanned} (hp : s.phase = .ready)
    (ht : s.tokens = t :: ts) (hs : t.token.isChar ';' = false) (n : Nat) :
    .stopping n ∉ s.step.1 := by
  rcases hf : s.parser.form (.ofLexeme t.token.lexeme) with ⟨f | e, q⟩
  · rw [step_of_error hp ht hs hf]
    simp [seenBetween]
  · rw [step_of_ok hp ht hs hf, success]
    split <;> simp [seenBetween]

theorem stopping_not_mem_step (hp : s.phase = .ready) (hw : s.collector.shouldStop = false)
    (hne : s.tokens ≠ []) (n : Nat) : .stopping n ∉ s.step.1 := by
  obtain ⟨t, ts, ht⟩ := List.exists_cons_of_ne_nil hne
  by_cases hs : t.token.isChar ';' = true
  · rw [step_of_semicolon hp ht hs, check_of_not_shouldStop (s := s.skip) hw]
    simp [after]
  · rw [Bool.not_eq_true] at hs
    exact stopping_not_mem_step_of_form hp ht hs n

/-- A run warns once, when it stops, and not at all if it comes to the end of the input. -/
theorem drain_warnings (h : s.IsUnderWay) : Event.records .warning s.drain.1 =
    if s.drain.2.collector.shouldStop = true then
      (Event.stopping s.drain.2.collector.count).record?.toList
    else [] := by
  refine underWay_induction (motive := fun s => Event.records .warning s.drain.1 =
    if s.drain.2.collector.shouldStop = true then
      (Event.stopping s.drain.2.collector.count).record?.toList
    else []) ?stopped ?resumed ?ended ?turned s h
  case stopped =>
    intro s hp hw
    rw [drain_of_step (by simp [hp]), step_of_suspended hp, check_of_shouldStop hw,
      drain_of_finished rfl]
    exact (if_pos hw).symm
  case resumed =>
    intro s hp hw ih
    rw [drain_of_step (by simp [hp]), step_of_suspended hp, check_of_not_shouldStop hw]
    exact ih
  case ended =>
    intro s hp hw ht
    rw [drain_of_step (by simp [hp]), step_of_end hp ht, drain_of_finished rfl]
    exact (if_neg (by simp [after, hw])).symm
  case turned =>
    intro s hp hw hne ih
    have hstep := Event.records_warning_eq_nil (stopping_not_mem_step hp hw hne)
    rw [drain_of_step (by simp [hp]), after, Event.records_append, hstep, List.nil_append]
    exact ih

/-! ## From the start -/

variable {R : Rules} {maxErrors : Int} {file : String} {source : Source} {k : Nat}

/-- The run of a session comes to the end of the input: not so many forms fail that it stops. -/
def IsUnlimited (s : Session) : Prop := s.drain.2.collector.shouldStop = false

theorem exists_isUnlimited (R : Rules) (ho : (Upcoming.ofSource file source).Ordered) :
    ∃ maxErrors, (start R maxErrors file source).IsUnlimited :=
  ⟨_, (start_shouldStop_iff ho).2 (Int.lt_succ _)⟩

theorem primed_isUnderWay (h : 1 ≤ maxErrors) : (primed R maxErrors file source).IsUnderWay :=
  .inr ⟨rfl, not_shouldStop_of_nil h rfl⟩

theorem start_results_eq_untilFailures (R : Rules) (file : String) (source : Source) (h : 1 ≤ k) :
    (start R k file source).results =
      FormResult.untilFailures k (Parser.start R file source).prime.forms := by
  have hdrain := drain_results (s := primed R k file source) (primed_isUnderWay (by omega))
  have hleft : (primed R k file source).collector.left = k := by
    show ((k : Int) - (0 : Nat)).toNat = k
    omega
  rw [hleft] at hdrain
  rw [results, start_drain, after, Event.results_append, hdrain]
  rfl

theorem start_warnings (h : 1 ≤ maxErrors) :
    Event.records .warning (start R maxErrors file source).drain.1 =
      if (start R maxErrors file source).drain.2.collector.shouldStop = true then
        (Event.stopping (start R maxErrors file source).drain.2.collector.count).record?.toList
      else [] := by
  have hfirst : Event.records .warning
      [.prompted 0, .scanned (Upcoming.ofSource file source).head] = [] :=
    Event.records_warning_eq_nil (by simp)
  rw [start_drain, after, Event.records_append, drain_warnings (primed_isUnderWay h), hfirst]
  rfl

/-- The run of a session hands out the first of some results, up to the failure that makes up a
number. It notes the failures, and says in the log whether it has stopped. -/
structure Truncates (s : Session) (k : Nat) (all : List FormResult) : Prop where
  stopped : k ≤ (all.filterMap FormResult.failure?).length →
    FormResult.IsShortest k all s.results
  whole : (all.filterMap FormResult.failure?).length < k → s.results = all
  noted : s.drain.2.collector.diagnostics =
    (s.results.filterMap FormResult.failure?).map Failure.diagnostic
  warned : Event.records .warning s.drain.1 =
    if (s.results.filterMap FormResult.failure?).length = k then
      [⟨.warning, "kaleido.frontend.driver", "stopping after " ++ toString k ++ " errors"⟩]
    else []

/-- A greatest number of errors cuts off results and does nothing else to them: they are the first
of those that a run hands out whose greatest number of errors is out of reach, as one always is. -/
theorem start_truncates (R : Rules) {k : Nat} (hk : 1 ≤ k) (file : String)
    (answers : List (Option Char)) (remembersEnd : Bool) :
    (∃ maxErrors, (start R maxErrors file (.ofAnswers answers remembersEnd)).IsUnlimited) ∧
      ∀ maxErrors, (start R maxErrors file (.ofAnswers answers remembersEnd)).IsUnlimited →
        (start R k file (.ofAnswers answers remembersEnd)).Truncates k
          (start R maxErrors file (.ofAnswers answers remembersEnd)).results := by
  have ho := Upcoming.ofAnswers_ordered file answers remembersEnd
  generalize Source.ofAnswers answers remembersEnd = source at ho ⊢
  refine ⟨exists_isUnlimited R ho, ?_⟩
  intro maxErrors h
  have hresults := start_results_eq_untilFailures R file source hk
  obtain ⟨hmax, hcount⟩ := start_collector R k ho
  rw [start_results_eq_forms ho h]
  constructor
  case stopped =>
    intro hall
    rw [hresults]
    exact FormResult.untilFailures_isShortest hall
  case whole =>
    intro hall
    rw [hresults, FormResult.untilFailures_of_lt hall]
  case noted =>
    rw [start_diagnostics ho, filterMap_failure?, results, start_results ho]
  case warned =>
    have hlength := FormResult.length_failures_untilFailures k
      (Parser.start R file source).prime.forms
    rw [← hresults] at hlength
    rw [start_warnings (by omega), Collector.shouldStop, hmax, hcount]
    simp only [decide_eq_true_eq]
    by_cases hk' : ((start R k file source).results.filterMap FormResult.failure?).length = k
    · rw [if_pos (by omega), if_pos hk', hk']
      rfl
    · rw [if_neg (by omega), if_neg hk']

/-- Of three forms that fail two are handed out, with the form between them, which does not. -/
theorem truncates_behind_two_failures : 1 ≤ 2 ∧
    (start ⟨.standard, 256, true⟩ 100 "p"
      (.ofAnswers (") 1 ; f( ;\n) 2".toList.map some) false)).IsUnlimited ∧
    (start ⟨.standard, 256, true⟩ (2 : Nat) "p"
      (.ofAnswers (") 1 ; f( ;\n) 2".toList.map some) false)).Truncates 2
      (start ⟨.standard, 256, true⟩ 100 "p"
        (.ofAnswers (") 1 ; f( ;\n) 2".toList.map some) false)).results := by
  have h : (start ⟨.standard, 256, true⟩ 100 "p"
      (.ofAnswers (") 1 ; f( ;\n) 2".toList.map some) false)).IsUnlimited := by
    unfold IsUnlimited
    decide +kernel
  exact ⟨by decide, h, (start_truncates _ (by decide) _ _ _).2 _ h⟩

end Session

end OperatorGrammar
