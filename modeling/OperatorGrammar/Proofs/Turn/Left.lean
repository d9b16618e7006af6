import OperatorGrammar.Proofs.Rendering
import OperatorGrammar.Run

/-!
Runs that an error of the stack may leave. Up to the definition for whose text there is no room such
a run does what the session does, and then nothing more. Main statements: `Session.stepsOn`, what a
step can come to; from it `Session.drainOn_eq`, what a whole run shows, and `Session.drainOn_walks`,
by which it is a walk; and `Session.start_left`, when an error leaves it. Where none does, the run
is that of the session (`Session.drainOn_of_left_eq_none`, `Session.turnsOn_of_left_eq_none`), and
there is none where there is always room (`Session.start_drainOn_unbounded`).
-/

namespace OperatorGrammar

/-! ## Definitions that are refused -/

/-- Why a definition is not given to the log, if its text is refused. -/
def Node.refusal? (k : Stack) (n : Node) : Option Refusal :=
  match n.sexprOn k with
  | .ok _ => none
  | .error r => some r

/-- Why a result is not handed out, if it is that of a definition. -/
def FormResult.refusal? (k : Stack) : FormResult → Option Refusal
  | ⟨.definition, .ok n⟩ => n.refusal? k
  | ⟨_, _⟩ => none

/-- Why an event does not come about, if it shows a definition. -/
def Event.refusal? (k : Stack) : Event → Option Refusal
  | .defined n => n.refusal? k
  | .prompted _ | .scanned _ | .recovering _ | .succeeded _ | .yielded _ | .stopping _ => none

theorem Node.refusal?_eq_some_iff {k : Stack} {n : Node} {r : Refusal} :
    n.refusal? k = some r ↔ n.sexprOn k = .error r := by
  rw [refusal?]
  cases n.sexprOn k <;> simp

theorem FormResult.refusal?_error (k : Stack) (kind : FormKind) (f : Failure) :
    refusal? k ⟨kind, .error f⟩ = none := by
  cases kind <;> rfl

theorem FormResult.exists_of_refusal? {k : Stack} {x : FormResult} {r : Refusal}
    (h : x.refusal? k = some r) : ∃ n, x = ⟨.definition, .ok n⟩ ∧ n.refusal? k = some r := by
  obtain ⟨kind, outcome⟩ := x
  cases outcome with
  | error f =>
    rw [refusal?_error] at h
    cases h
  | ok n =>
    cases kind with
    | definition => exact ⟨n, rfl, h⟩
    | _ => cases h

/-- A sound definition is refused only for want of room. -/
theorem Node.IsSound.refusal?_eq_some_iff {k : Stack} {n : Node} {r : Refusal} (h : n.IsSound) :
    n.refusal? k = some r ↔ r = .exhausted ∧ ¬ k.HasRoom n := by
  rw [Node.refusal?_eq_some_iff]
  by_cases hk : k.HasRoom n
  · rw [h.sexprOn_eq hk]
    simp [hk]
  · rw [h.sexprOn_eq_exhausted hk]
    simp [hk, eq_comm]

theorem Parser.definitionOn_of_ok {k : Stack} {p q : Parser} {n : Node}
    (h : p.definition = (.ok n, q)) :
    p.definitionOn k = ((n.sexprOn k).map fun _ => .ok n, q) := by
  rw [definitionOn, h]

namespace Session

variable {k : Stack} {s : Session} {kind : FormKind} {n : Node} {f : Failure} {q : Parser}
  {r : Refusal}

/-! ## One step -/

theorem attemptOn_of_form_ok {x : Except Failure Node}
    (h : (s.parser.formOn k kind).1 = .ok x) : s.attemptOn k kind = .ofStep (s.attempt kind) := by
  unfold attemptOn
  split
  · rfl
  · rename_i hr
    rw [hr] at h
    cases h

theorem attemptOn_of_error (hf : s.parser.form kind = (.error f, q)) :
    s.attemptOn k kind = .ofStep (s.attempt kind) := by
  have hform : (s.parser.formOn k kind).1 = .ok (.error f) := by
    cases kind with
    | definition =>
      have hd : s.parser.definition = (.error f, q) := hf
      rw [Parser.formOn, Parser.definitionOn, hd]
    | external => exact congrArg (Except.ok ∘ Prod.fst) hf
    | expression => exact congrArg (Except.ok ∘ Prod.fst) hf
  exact attemptOn_of_form_ok hform

theorem attemptOn_of_ok (hf : s.parser.form kind = (.ok n, q))
    (hr : FormResult.refusal? k ⟨kind, .ok n⟩ = none) :
    s.attemptOn k kind = .ofStep (s.attempt kind) := by
  have hform : (s.parser.formOn k kind).1 = .ok (.ok n) := by
    cases kind with
    | definition =>
      have hd : s.parser.definition = (.ok n, q) := hf
      rw [Parser.formOn, Parser.definitionOn_of_ok hd]
      cases ht : n.sexprOn k with
      | ok t => rfl
      | error r => exact nomatch (Node.refusal?_eq_some_iff.2 ht).symm.trans hr
    | external => exact congrArg (Except.ok ∘ Prod.fst) hf
    | expression => exact congrArg (Except.ok ∘ Prod.fst) hf
  exact attemptOn_of_form_ok hform

/-- The error leaves the run behind the definition, and of the form nothing is shown but its
tokens. -/
theorem attemptOn_of_refused (hf : s.parser.form .definition = (.ok n, q))
    (hr : n.refusal? k = some r) : s.attemptOn k .definition =
      ⟨seenBetween s.parser q, { s with parser := q, phase := .finished }, some r⟩ := by
  have hd : s.parser.definition = (.ok n, q) := hf
  rw [attemptOn, Parser.formOn, Parser.definitionOn_of_ok hd, Node.refusal?_eq_some_iff.1 hr]
  rfl

/-- What a step comes to: it is that of the session, and refuses nothing, or it reads a definition
that is refused. -/
inductive StepsOn (k : Stack) (s : Session) : Prop where
  | passed : s.stepOn k = .ofStep s.step → (∀ e ∈ s.step.1, e.refusal? k = none) →
    (∀ r ∈ Event.results s.step.1, r.refusal? k = none) → StepsOn k s
  | left {n : Node} {r : Refusal} {seen : List Event} : n.refusal? k = some r →
    s.phase = .ready → s.tokens ≠ [] → (∀ e ∈ seen, e.refusal? k = none) →
    Event.results seen = [] → s.step.1 = seen ++ success .definition n →
    s.step.2.collector = s.collector →
    s.stepOn k = ⟨seen, { s.step.2 with phase := .finished }, some r⟩ → StepsOn k s

theorem stepOn_of_form {t : Scanned} {ts : List Scanned} (hp : s.phase = .ready)
    (ht : s.tokens = t :: ts) (hs : t.token.isChar ';' = false) :
    s.stepOn k = .after [.prompted s.parser.requests]
      (s.attemptOn k (.ofLexeme t.token.lexeme)) := by
  simp [stepOn, hp, ht, hs]

theorem refusal?_seenBetween (k : Stack) (p q : Parser) :
    ∀ e ∈ seenBetween p q, e.refusal? k = none := by
  intro e he
  obtain ⟨t, -, rfl⟩ := List.mem_map.1 he
  rfl

theorem refusal?_check (k : Stack) (s : Session) : ∀ e ∈ s.check.1, e.refusal? k = none := by
  unfold check
  split
  · exact List.forall_mem_singleton.2 rfl
  · exact List.forall_mem_nil _

theorem refusal?_success (h : FormResult.refusal? k ⟨kind, .ok n⟩ = none) :
    ∀ e ∈ success kind n, e.refusal? k = none := by
  have hend : ∀ e ∈ [Event.succeeded kind, .yielded ⟨kind, .ok n⟩], e.refusal? k = none := by
    simp [Event.refusal?]
  cases kind with
  | definition => exact List.forall_mem_cons.2 ⟨h, hend⟩
  | _ => exact hend

/-- A step in which no form is attempted. -/
theorem stepsOn_of_results_nil (h : s.stepOn k = .ofStep s.step)
    (hs : ∀ e ∈ s.step.1, e.refusal? k = none) (hr : Event.results s.step.1 = []) :
    StepsOn k s :=
  .passed h hs (by rw [hr]; exact List.forall_mem_nil _)

theorem stepsOn_of_form {t : Scanned} {ts : List Scanned} (hp : s.phase = .ready)
    (ht : s.tokens = t :: ts) (hs : t.token.isChar ';' = false) : StepsOn k s := by
  have hstepOn := stepOn_of_form (k := k) hp ht hs
  have hseen (q : Parser) :
      ∀ e ∈ [.prompted s.parser.requests] ++ seenBetween s.parser q, e.refusal? k = none :=
    List.forall_mem_cons.2 ⟨rfl, refusal?_seenBetween k s.parser q⟩
  have hpassed (h : s.attemptOn k (.ofLexeme t.token.lexeme) =
      .ofStep (s.attempt (.ofLexeme t.token.lexeme))) : s.stepOn k = .ofStep s.step := by
    rw [hstepOn, h]
    simp only [step, hp, turn, ht, hs, Bool.false_eq_true, if_false]
    rfl
  rcases hf : s.parser.form (.ofLexeme t.token.lexeme) with ⟨f | n, q⟩
  · have hstep := step_of_error hp ht hs hf
    refine .passed (hpassed (attemptOn_of_error hf)) ?_ ?_
    · rw [hstep, ← List.append_assoc]
      exact List.forall_mem_append.2 ⟨hseen q, by simp [Event.refusal?]⟩
    · rw [hstep, Event.results_append, Event.results_append, results_seenBetween]
      exact List.forall_mem_singleton.2 (FormResult.refusal?_error k _ f)
  · have hstep := step_of_ok hp ht hs hf
    cases hr : FormResult.refusal? k ⟨.ofLexeme t.token.lexeme, .ok n⟩ with
    | none =>
      refine .passed (hpassed (attemptOn_of_ok hf hr)) ?_ ?_
      · rw [hstep, ← List.append_assoc]
        exact List.forall_mem_append.2 ⟨hseen q, refusal?_success hr⟩
      · rw [hstep, Event.results_append, Event.results_append, results_seenBetween,
          results_success]
        exact List.forall_mem_singleton.2 hr
    | some r =>
      have hkind : FormKind.ofLexeme t.token.lexeme = .definition := by
        generalize FormKind.ofLexeme t.token.lexeme = kind at hr
        cases kind with
        | definition => rfl
        | _ => cases hr
      rw [hkind] at hstep hr hf hstepOn
      rw [attemptOn_of_refused hf hr] at hstepOn
      rw [← List.append_assoc] at hstep
      refine .left hr hp (ht ▸ List.cons_ne_nil t ts) (hseen q) ?_ (congrArg Prod.fst hstep) ?_ ?_
      · rw [Event.results_append, results_seenBetween]
        rfl
      · rw [hstep]
      · rw [hstepOn, hstep]
        rfl

theorem stepsOn (k : Stack) (s : Session) : StepsOn k s := by
  cases hp : s.phase with
  | fresh =>
    have hstep : s.step = s.prime := by rw [step, hp]
    refine stepsOn_of_results_nil (by simp [stepOn, hp]) ?_ ?_
    · rw [hstep, prime]
      split <;> simp [Event.refusal?]
    · rw [hstep, prime]
      split <;> rfl
  | ready =>
    cases ht : s.tokens with
    | nil =>
      have hstep := step_of_end hp ht
      refine stepsOn_of_results_nil (by simp [stepOn, hp, ht]) ?_ ?_
      · rw [hstep]
        exact List.forall_mem_singleton.2 rfl
      · rw [hstep]
        rfl
    | cons t ts =>
      by_cases hs : t.token.isChar ';' = true
      · have hstep := step_of_semicolon hp ht hs
        refine stepsOn_of_results_nil (by simp [stepOn, hp, ht, hs]) ?_ ?_
        · rw [hstep]
          exact List.forall_mem_append.2 ⟨by simp [Event.refusal?], refusal?_check k _⟩
        · rw [hstep, after, Event.results_append, results_check]
          rfl
      · exact stepsOn_of_form hp ht (by simpa using hs)
  | suspended =>
    have hstep := step_of_suspended hp
    refine stepsOn_of_results_nil (by simp [stepOn, hp]) ?_ ?_
    · rw [hstep]
      exact refusal?_check k s
    · rw [hstep, results_check]
  | finished =>
    have hstep := step_of_finished hp
    refine stepsOn_of_results_nil (by simp [stepOn, hp]) ?_ ?_
    · rw [hstep]
      exact List.forall_mem_nil _
    · rw [hstep]
      rfl

/-! ## Whole runs -/

theorem drainOn_of_finished (h : s.phase = .finished) : s.drainOn k = .ofStep ([], s) := by
  rw [drainOn, if_pos h]

theorem drainOn_of_passed (hp : s.phase ≠ .finished) (h : s.stepOn k = .ofStep s.step) :
    s.drainOn k = .after s.step.1 (s.step.2.drainOn k) := by
  rw [drainOn, if_neg hp, h]
  exact if_pos rfl

theorem drainOn_of_refused {run : Run} (hp : s.phase ≠ .finished) (h : s.stepOn k = run)
    (hr : run.left = some r) : s.drainOn k = run := by
  rw [drainOn, if_neg hp, h]
  exact if_neg (by rw [hr]; exact nofun)

section

variable {α β : Type} {f : α → Option β} {front rest : List α} {a : α} {b : β}

theorem until_append (h : ∀ x ∈ front, f x = none) (rest : List α) :
    (front ++ rest).takeWhile (fun x => (f x).isNone) =
        front ++ rest.takeWhile (fun x => (f x).isNone) ∧
      (front ++ rest).findSome? f = rest.findSome? f := by
  have htrue : ∀ x ∈ front, (f x).isNone = true := by
    intro x hx
    rw [h x hx]
    rfl
  rw [List.takeWhile_append_of_pos htrue, List.findSome?_append, List.findSome?_eq_none_iff.2 h,
    Option.none_or]
  exact ⟨rfl, rfl⟩

theorem until_cons (h : f a = some b) : (a :: rest).takeWhile (fun x => (f x).isNone) = [] ∧
    (a :: rest).findSome? f = some b := by
  simp [h]

end

/-- So the results are those of the session up to the first definition that is refused. -/
theorem results_drainOn (k : Stack) (s : Session) :
    Event.results (s.drainOn k).events =
        s.results.takeWhile (fun r => (r.refusal? k).isNone) ∧
      (s.drainOn k).left = s.results.findSome? (FormResult.refusal? k) := by
  induction s using run_induction with
  | finished s h =>
    rw [results, drainOn_of_finished h, drain_of_finished h]
    exact ⟨rfl, rfl⟩
  | step s h ih =>
    rw [results, results_drain_of_step h]
    cases stepsOn k s with
    | passed hstep _ hrs =>
      rw [drainOn_of_passed h hstep]
      obtain ⟨hresults, hleft⟩ := until_append hrs s.step.2.results
      refine ⟨?_, ih.2.trans hleft.symm⟩
      rw [Run.after, Event.results_append, ih.1]
      exact hresults.symm
    | @left n r seen hr hp _ _ hnone hstep _ hstepOn =>
      have hresult : FormResult.refusal? k ⟨.definition, .ok n⟩ = some r := hr
      rw [drainOn_of_refused h hstepOn rfl, hstep, Event.results_append, hnone, results_success,
        List.nil_append, List.singleton_append, (until_cons hresult).1, (until_cons hresult).2]
      exact ⟨rfl, rfl⟩

/-- A run that no error leaves is that of the session. -/
theorem drainOn_of_left_eq_none (h : (s.drainOn k).left = none) :
    s.drainOn k = .ofStep s.drain := by
  induction s using run_induction with
  | finished s hp => rw [drainOn_of_finished hp, drain_of_finished hp]
  | step s hp ih =>
    rw [drain_of_step hp]
    cases stepsOn k s with
    | passed hstep _ _ =>
      rw [drainOn_of_passed hp hstep] at h ⊢
      rw [ih h]
      rfl
    | left _ _ _ _ _ _ _ hstepOn =>
      rw [drainOn_of_refused hp hstepOn rfl] at h
      cases h

/-- The turns of a run on a stack. If an error leaves the run, that is in the last of them. -/
def turnsOn (k : Stack) (s : Session) : List Turn :=
  if s.phase = .finished then []
  else s.turn?.toList ++
    if (s.stepOn k).left = none then turnsOn k (s.stepOn k).last else []
termination_by s.work
decreasing_by
  rename_i h hleft
  rw [stepOn_of_left hleft]
  exact step_work_lt h

theorem turnsOn_of_finished (h : s.phase = .finished) : s.turnsOn k = [] := by
  rw [turnsOn, if_pos h]

theorem turnsOn_of_passed (hp : s.phase ≠ .finished) (h : s.stepOn k = .ofStep s.step) :
    s.turnsOn k = s.turn?.toList ++ s.step.2.turnsOn k := by
  rw [turnsOn, if_neg hp, h]
  exact congrArg _ (if_pos rfl)

theorem turnsOn_of_left_eq_none (h : (s.drainOn k).left = none) : s.turnsOn k = s.turns := by
  induction s using run_induction with
  | finished s hp => rw [turnsOn_of_finished hp, turns_of_finished hp]
  | step s hp ih =>
    rw [turns_of_step hp]
    cases stepsOn k s with
    | passed hstep _ _ =>
      rw [drainOn_of_passed hp hstep] at h
      rw [turnsOn_of_passed hp hstep, ih h]
    | left _ _ _ _ _ _ _ hstepOn =>
      rw [drainOn_of_refused hp hstepOn rfl] at h
      cases h

/-- What is missing from the events of a run: nothing, or what would have been shown of the
definition with which the last turn ends. -/
inductive Missing (k : Stack) (τs : List Turn) : Option Refusal → List Event → Prop where
  | nothing : Missing k τs none []
  | definition {n : Node} {r : Refusal} : n.refusal? k = some r →
    (τs.getLast?.bind Turn.result) = some ⟨.definition, .ok n⟩ →
    Missing k τs (some r) (success .definition n)

theorem Missing.scans {τs : List Turn} {left : Option Refusal} {more : List Event}
    (h : Missing k τs left more) : Event.scans more = [] := by
  cases h with
  | nothing => rfl
  | definition _ _ => exact scans_success _ _

/-- What is missing from the results is the last of them. -/
theorem Missing.results {τs : List Turn} {left : Option Refusal} {es more : List Event}
    {rs : List FormResult} (h : Missing k τs left more)
    (hr : Event.results (es ++ more) = rs) :
    Event.results es = if left.isNone then rs else rs.dropLast := by
  subst hr
  rw [Event.results_append]
  cases h with
  | nothing => exact (List.append_nil _).symm
  | definition _ _ =>
    rw [results_success]
    exact List.dropLast_concat.symm

theorem Missing.append {τs : List Turn} {left : Option Refusal} {more : List Event}
    (h : Missing k τs left more) (σs : List Turn) : Missing k (σs ++ τs) left more := by
  cases h with
  | nothing => exact .nothing
  | definition hr hlast =>
    refine .definition hr ?_
    cases hτ : τs.getLast? with
    | none => simp [hτ] at hlast
    | some τ => simpa [List.getLast?_append, hτ] using hlast

variable {R : Rules} {maxErrors : Int} {file : String} {source : Source}

/-- An error leaves a run if there is no room for a definition that the session would hand out, and
that is what it says. -/
theorem start_left (R : Rules) (maxErrors : Int) (file : String) (answers : List (Option Char))
    (remembersEnd : Bool) (k : Stack) (r : Refusal) :
    let s := start R maxErrors file (.ofAnswers answers remembersEnd)
    (s.drainOn k).left = some r ↔
      r = .exhausted ∧ ∃ n, ⟨.definition, .ok n⟩ ∈ s.results ∧ ¬ k.HasRoom n := by
  intro s
  have hshaped := start_isShaped R maxErrors file answers remembersEnd
  have hrefused {r : Refusal} {n : Node} (hn : ⟨.definition, .ok n⟩ ∈ s.results) :
      n.refusal? k = some r ↔ r = .exhausted ∧ ¬ k.HasRoom n :=
    (hshaped.trees _ hn n rfl).isSound.refusal?_eq_some_iff
  have hleft {r : Refusal} (h : s.results.findSome? (FormResult.refusal? k) = some r) :
      r = .exhausted ∧ ∃ n, ⟨.definition, .ok n⟩ ∈ s.results ∧ ¬ k.HasRoom n := by
    obtain ⟨x, hx, hr⟩ := List.exists_of_findSome?_eq_some h
    obtain ⟨n, rfl, hn⟩ := FormResult.exists_of_refusal? hr
    obtain ⟨rfl, hroom⟩ := (hrefused hx).1 hn
    exact ⟨rfl, n, hx, hroom⟩
  rw [(results_drainOn k s).2]
  refine ⟨hleft, ?_⟩
  rintro ⟨rfl, n, hn, hroom⟩
  cases hf : s.results.findSome? (FormResult.refusal? k) with
  | none =>
    have hnone : n.refusal? k = none := List.findSome?_eq_none_iff.1 hf _ hn
    rw [(hrefused hn).2 ⟨rfl, hroom⟩] at hnone
    cases hnone
  | some r => rw [(hleft hf).1]

theorem start_left_eq_none {answers : List (Option Char)} {remembersEnd : Bool}
    (h : ∀ n, ⟨.definition, .ok n⟩ ∈
      (start R maxErrors file (.ofAnswers answers remembersEnd)).results → k.HasRoom n) :
    ((start R maxErrors file (.ofAnswers answers remembersEnd)).drainOn k).left = none := by
  cases hleft : ((start R maxErrors file (.ofAnswers answers remembersEnd)).drainOn k).left with
  | none => rfl
  | some r =>
    obtain ⟨-, n, hn, hroom⟩ := (start_left R maxErrors file answers remembersEnd k r).1 hleft
    exact absurd (h n hn) hroom

/-- Where there is always room, a run is that of the session. -/
theorem start_drainOn_unbounded (R : Rules) (maxErrors : Int) (file : String)
    (answers : List (Option Char)) (remembersEnd : Bool) :
    (start R maxErrors file (.ofAnswers answers remembersEnd)).drainOn .unbounded =
      .ofStep (start R maxErrors file (.ofAnswers answers remembersEnd)).drain :=
  drainOn_of_left_eq_none (start_left_eq_none fun n _ => Stack.unbounded_hasRoom n)

end Session

end OperatorGrammar
