import OperatorGrammar.Proofs.Turn.Forms

/-!
The same run under other rules. Rules matter to expressions only, so two runs are the same if the
expressions in them are read alike. Main statements: `Parser.form_under` and `Session.drain_under`.
-/

namespace OperatorGrammar

/-! ## Prototypes -/

namespace Prototype

variable {f : Failure}

theorem fault_of_readParameters {read : List String} {ts : List Scanned}
    (h : (readParameters read ts).1 = .error f) : ∃ name, f.fault = .duplicateParameter name := by
  induction ts generalizing read with
  | nil => cases h
  | cons t ts ih =>
    unfold readParameters at h
    split at h
    · split at h
      · obtain rfl := Except.error.inj h
        exact ⟨_, rfl⟩
      · exact ih h
    · cases h

/-- What can be wrong with a prototype. -/
theorem fault_of_read {u : Upcoming} (h : (Prototype.read u).1 = .error f) :
    (∃ expected, f.fault = .missing expected) ∨ ∃ name, f.fault = .duplicateParameter name := by
  have of_missing : ∀ (expected : Expected) (v : Upcoming),
      (missing (α := Prototype) expected v).1 = .error f → f.fault = .missing expected := by
    intro expected v hf
    obtain rfl := Except.error.inj hf
    rfl
  unfold Prototype.read at h
  split at h
  · dsimp only at h
    split at h
    · split at h
      · rename_i g left hg
        obtain rfl : g = f := Except.error.inj h
        exact .inr (fault_of_readParameters (congrArg Prod.fst hg))
      · split at h
        · cases h
        · exact .inl ⟨_, of_missing _ _ h⟩
    · exact .inl ⟨_, of_missing _ _ h⟩
  · exact .inl ⟨_, of_missing _ _ h⟩

end Prototype

/-! ## Forms -/

namespace Parser

variable {p : Parser} {R : Rules}

/-- The same parser under other rules. -/
def under (R : Rules) (p : Parser) : Parser := { p with rules := R }

/-- The parser in front of the expression that a form has: behind the prototype of a definition, if
that can be read. -/
def body? (p : Parser) : FormKind → Option Parser
  | .definition =>
    match p.next.prototype with
    | (.ok _, q) => some q
    | (.error _, _) => none
  | .external => none
  | .expression => some p

/-- Under other rules a reading gives the same and leaves the same. -/
def SameUnder (R : Rules) (p : Parser) (read : Parser → Except Failure Node × Parser) : Prop :=
  read (p.under R) = ((read p).1, (read p).2.under R)

/-- An expression is read alike if its tokens are. -/
theorem expression_under
    (h : (Expression.Reader.expression p.opened).runOn R p.upcoming.last p.upcoming.tokens =
      (Expression.Reader.expression p.opened).runOn p.rules p.upcoming.last p.upcoming.tokens) :
    p.SameUnder R expression :=
  congrArg (fun ending : Expression.Reader.Ending => (ending.result,
    ({ p with
      rules := R
      upcoming := p.upcoming.withTokens ending.rest
      opened := ending.opened } : Parser))) h

theorem body?_definition {proto : Prototype} {q : Parser} (h : p.next.prototype = (.ok proto, q)) :
    p.body? .definition = some q := by
  simp only [body?, h]

theorem body?_keeps {b : Parser} {kind : FormKind} (h : p.body? kind = some b) :
    b = { p with upcoming := b.upcoming } := by
  cases kind with
  | definition =>
    rcases hq : p.next.prototype with ⟨f | proto, q⟩
    · simp only [body?, hq] at h
      cases h
    · rw [body?_definition hq] at h
      obtain rfl := Option.some.inj h
      exact prototype_keeps hq
  | external => cases h
  | expression =>
    obtain rfl := Option.some.inj h
    rfl

/-- A form that has an expression gives what is made of that, whatever the rules are. -/
theorem form_of_body {b : Parser} {kind : FormKind} (h : p.body? kind = some b) (R : Rules) :
    ∃ wrap : Node → Node, p.form kind = (b.expression.1.map wrap, b.expression.2) ∧
      (p.under R).form kind = ((b.under R).expression.1.map wrap, (b.under R).expression.2) := by
  cases kind with
  | definition =>
    rcases hq : p.next.prototype with ⟨f | proto, q⟩
    · simp only [body?, hq] at h
      cases h
    · rw [body?_definition hq] at h
      obtain rfl := Option.some.inj h
      have hq' : (p.under R).next.prototype = (.ok proto, q.under R) := by
        show (p.next.prototype.1, p.next.prototype.2.under R) = _
        rw [hq]
      exact ⟨_, definition_of_ok hq, definition_of_ok hq'⟩
  | external => cases h
  | expression =>
    obtain rfl := Option.some.inj h
    exact ⟨_, rfl, rfl⟩

/-- Rules do not matter to a form that has no expression. -/
theorem form_of_no_body {kind : FormKind} (h : p.body? kind = none) (R : Rules) :
    p.SameUnder R (form · kind) := by
  cases kind with
  | definition =>
    rcases hq : p.next.prototype with ⟨f | proto, q⟩
    · have hq' : (p.under R).next.prototype = (.error f, q.under R) := by
        show (p.next.prototype.1, p.next.prototype.2.under R) = _
        rw [hq]
      show (p.under R).definition = (p.definition.1, p.definition.2.under R)
      rw [definition_of_error hq, definition_of_error hq']
    · rw [body?_definition hq] at h
      cases h
  | external => rfl
  | expression => cases h

/-- What can be wrong with a form that has no expression is wrong with its prototype. -/
theorem fault_of_no_body {kind : FormKind} {f : Failure} (hb : p.body? kind = none)
    (h : (p.form kind).1 = .error f) :
    (∃ expected, f.fault = .missing expected) ∨ ∃ name, f.fault = .duplicateParameter name := by
  cases kind with
  | definition =>
    rcases hq : p.next.prototype with ⟨g | proto, q⟩
    · change p.definition.1 = .error f at h
      rw [definition_of_error hq] at h
      obtain rfl := Except.error.inj h
      exact Prototype.fault_of_read (congrArg Prod.fst hq)
    · rw [body?_definition hq] at hb
      cases hb
  | external => exact Prototype.fault_of_read (Except.map_eq_error_iff.1 h)
  | expression => cases hb

/-- A form is read alike if its expression is. -/
theorem form_under (kind : FormKind)
    (h : ∀ b, p.body? kind = some b → b.SameUnder R expression) :
    p.SameUnder R (form · kind) := by
  cases hb : p.body? kind with
  | none => exact form_of_no_body hb R
  | some b =>
    obtain ⟨wrap, hform, hunder⟩ := form_of_body hb R
    have hexpression : (b.under R).expression = (b.expression.1, b.expression.2.under R) := h b hb
    show (p.under R).form kind = ((p.form kind).1, (p.form kind).2.under R)
    rw [hunder, hform, hexpression]

end Parser

/-! ## Runs -/

namespace Session

variable {s : Session} {R : Rules}

/-- The same session under other rules. -/
def under (R : Rules) (s : Session) : Session := { s with parser := s.parser.under R }

/-- A step is the same if the form that it reads, in case it reads one, is read alike. -/
theorem step_under (h : ∀ t ts, s.phase = .ready → s.tokens = t :: ts → t.token.isChar ';' = false →
      s.parser.SameUnder R (Parser.form · (.ofLexeme t.token.lexeme))) :
    (s.under R).step = (s.step.1, s.step.2.under R) := by
  have hcheck : ∀ s : Session, (s.under R).check = (s.check.1, s.check.2.under R) := by
    intro s
    unfold check under
    dsimp only
    split <;> rfl
  cases hp : s.phase with
  | fresh =>
    have hp' : (s.under R).phase = .fresh := hp
    simp only [step, hp, hp']
    rfl
  | suspended =>
    have hp' : (s.under R).phase = .suspended := hp
    simp only [step, hp, hp']
    exact hcheck s
  | finished =>
    rw [step_of_finished hp, step_of_finished (s := s.under R) hp]
  | ready =>
    have hp' : (s.under R).phase = .ready := hp
    cases ht : s.tokens with
    | nil =>
      rw [step_of_end hp ht, step_of_end hp' ht]
      rfl
    | cons t ts =>
      by_cases hs : t.token.isChar ';' = true
      · rw [step_of_semicolon hp ht hs, step_of_semicolon hp' ht hs, after, after,
          show (s.under R).skip = s.skip.under R from rfl, hcheck]
        rfl
      · rw [Bool.not_eq_true] at hs
        have hform := h t ts hp ht hs
        unfold Parser.SameUnder at hform
        dsimp only at hform
        rcases hf : s.parser.form (.ofLexeme t.token.lexeme) with ⟨f | n, q⟩
        · rw [hf] at hform
          rw [step_of_error hp ht hs hf, step_of_error hp' ht hs hform]
          rfl
        · rw [hf] at hform
          rw [step_of_ok hp ht hs hf, step_of_ok hp' ht hs hform]
          rfl

/-- A step that reads a form hands out its result. -/
theorem mem_results_step {t : Scanned} {ts : List Scanned} (hp : s.phase = .ready)
    (ht : s.tokens = t :: ts) (hs : t.token.isChar ';' = false) :
    (⟨.ofLexeme t.token.lexeme, (s.parser.form (.ofLexeme t.token.lexeme)).1⟩ : FormResult) ∈
      Event.results s.step.1 := by
  have hhead : s.parser.upcoming.head = t := Upcoming.head_of_tokens ht
  have hlexeme : s.parser.upcoming.lexeme = t.token.lexeme := Upcoming.lexeme_of_tokens ht
  have hresult := Parser.turn_result (p := s.parser) (by rwa [hhead])
  rw [(step_turn hp (ht ▸ List.cons_ne_nil t ts)).1, hresult, hlexeme]
  exact List.mem_cons_self

/-- No step changes the rules or how many expressions are open. -/
theorem step_keeps (s : Session) : s.step.2.parser.rules = s.parser.rules ∧
    s.step.2.parser.opened = s.parser.opened := by
  cases hp : s.phase with
  | fresh =>
    simp only [step, hp]
    exact ⟨rfl, rfl⟩
  | suspended =>
    rw [step_of_suspended hp, parser_check]
    exact ⟨rfl, rfl⟩
  | finished =>
    rw [step_of_finished hp]
    exact ⟨rfl, rfl⟩
  | ready =>
    by_cases ht : s.tokens = []
    · rw [step_of_end hp ht]
      exact ⟨rfl, rfl⟩
    · rw [(step_turn hp ht).2.1, s.parser.turn_keeps]
      exact ⟨rfl, rfl⟩

/-- A run is the same under other rules if all forms with such results as it hands out are read
alike. -/
theorem drain_under (R' : Rules) (such : Except Failure Node → Prop)
    (hform : ∀ (p : Parser) kind, p.rules = R → p.opened = 0 → such (p.form kind).1 →
      p.SameUnder R' (Parser.form · kind))
    (hR : s.parser.rules = R) (ho : s.parser.opened = 0)
    (h : ∀ r ∈ Event.results s.drain.1, such r.outcome) :
    (s.under R').drain = (s.drain.1, s.drain.2.under R') := by
  induction s using run_induction with
  | finished s hp => rw [drain_of_finished hp, drain_of_finished (s := s.under R') hp]
  | step s hp ih =>
    rw [drain_of_step hp, after, Event.results_append] at h
    have hstep : (s.under R').step = (s.step.1, s.step.2.under R') := by
      apply step_under
      intro t ts hp ht hs
      apply hform _ _ hR ho
      exact h _ (List.mem_append_left _ (mem_results_step hp ht hs))
    obtain ⟨hrules, hopened⟩ := s.step_keeps
    have hrest := ih (hrules.trans hR) (hopened.trans ho)
      (fun r hr => h r (List.mem_append_right _ hr))
    rw [drain_of_step hp, drain_of_step (s := s.under R') hp, hstep, hrest]
    rfl

end Session

end OperatorGrammar
