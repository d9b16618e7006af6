import OperatorGrammar.Proofs.Locality

/-!
How far an expression goes. Of the tokens to come, at most one front is an expression that ends in
front of what follows: no operator goes on with it, and no parenthesis makes a call of its last
name. If there is such a front, then it is what is read, and else the reading fails because the
grammar is violated. Main statement: `Parser.expression_takes_maximal`.
-/

namespace OperatorGrammar

/-- Whether a cause is a violation of the grammar, and no other trouble. -/
def Cause.isGrammatical : Cause → Bool
  | general .. | report .. => false
  | grammar .. | unexpected .. | missing .. | malformedNumber _ | duplicateParameter _
  | nestingTooDeep _ => true

/-- The tokens of an expression that fits the rules, of whose expressions `depth` may stand inside
each other, and that ends in front of a lexeme. -/
def IsExpressionBefore (R : Rules) (depth : Nat) (ts : List Token) (next : Lexeme) : Prop :=
  ∃ e : Phrase .expression, e.tokens = ts ∧ e.Fits R depth ∧ EndsBefore R ts next

namespace Expression.Reader

variable {R : Rules} {r r' : Reader} {outside : Nat} {ts : List Token} {x : String} {l : Location}

/-- A name that is taken in may be that of a call. -/
theorem read?_identifier (hz : r.leastPrecedence = some 0)
    (h : r.read? R ⟨.identifier x, l⟩ = some r') : r'.progress = .named (.text x) l := by
  have operand : ∀ q : Reader, q.readOperand? R ⟨.identifier x, l⟩ = some r' →
      r'.progress = .named (.text x) l := by
    intro q hq
    obtain rfl := Option.some.inj hq
    rfl
  have entered : ∀ q : Reader, (q.enter? R).bind (readOperand? R · ⟨.identifier x, l⟩) = some r' →
      r'.progress = .named (.text x) l := by
    intro q hq
    obtain ⟨q', -, hq⟩ := Option.bind_eq_some_iff.1 hq
    exact operand q' hq
  -- behind an operand a name is not taken in
  have on : ∀ e, r.readOn? R e ⟨.identifier x, l⟩ = none := by
    intro e
    have hpos : ¬ 0 < R.precedence (.identifier x) := (by decide : ¬ (0 : Int) < -1)
    rw [readOn?, takesOperator_of_not_pos hz hpos, if_neg Bool.false_ne_true]
    split
    · rfl
    · split <;> rfl
  unfold read? at h
  split at h
  · exact entered r h
  · exact operand r h
  · exact entered _ h
  · cases (on _).symm.trans h
  · cases (on _).symm.trans h

/-- Behind tokens that end in a name, a parenthesis would make a call of it. -/
theorem named_of_endsInName (h : (Reader.expression outside).readAll? R ts = some r)
    (he : EndsInName ts) : ∃ x l, r.progress = .named x l := by
  obtain ⟨us, x, l, rfl⟩ := he
  rw [readAll?_append] at h
  obtain ⟨q, hq, h⟩ := Option.bind_eq_some_iff.1 h
  rw [readAll?_singleton] at h
  have hb := (begun_expression R outside).readAll hq
  exact ⟨.text x, l, read?_identifier hb.leastPrecedence h⟩

/-- Reading an expression goes wrong in no way but against the grammar. -/
theorem endBefore_ne_unnamedCallee (r : Reader) (next : Lexeme) :
    r.endBefore R next ≠ .error .unnamedCallee := by
  have operand : operandFault next ≠ .unnamedCallee := by
    intro h
    cases next <;> cases h
  have entry : r.entryFault R next ≠ .unnamedCallee := by
    rw [entryFault]
    split
    · exact operand
    · exact Fault.noConfusion
  have on : ∀ e, r.endOn R e next ≠ .error .unnamedCallee := by
    intro e h
    rw [endOn] at h
    split at h
    · split at h <;> cases h
    · cases h
    · cases h
  unfold endBefore
  split
  · exact fun h => entry (Except.error.inj h)
  · exact fun h => entry (Except.error.inj h)
  · exact fun h => operand (Except.error.inj h)
  · exact on _
  · exact on _

end Expression.Reader

theorem Fault.isGrammatical_cause {fault : Fault} (h : fault ≠ .unnamedCallee) (found : Lexeme) :
    (fault.cause found).isGrammatical = true := by
  cases fault with
  | unnamedCallee => exact absurd rfl h
  | _ => rfl

namespace Parser

open Expression Reader

variable {p q : Parser} {n : Node} {us : List Scanned}

/-- Nothing that follows an expression that has been read goes on with it. -/
theorem expression_endsBefore (h : p.expression = (.ok n, q))
    (hm : p.upcoming.Moves us q.upcoming) :
    EndsBefore p.rules (us.map (·.token)) q.upcoming.lexeme := by
  obtain ⟨us', r, hu, hr, hn⟩ :=
    runOn_refuses p.rules p.upcoming.last (.expression p.opened) p.upcoming.tokens
  have hm' : p.upcoming.Moves us' p.expression.2.upcoming := Upcoming.moves_withTokens hu
  have hres := congrArg Prod.fst (expression_of_readAll hm' hr hn)
  change ∀ t ∈ p.expression.2.upcoming.tokens.head?, r.read? p.rules t.token = none at hn
  rw [h] at hm' hres hn
  obtain rfl := hm.unique hm'
  have hok : r.endBefore p.rules q.upcoming.lexeme = .ok n :=
    Except.mapError_eq_ok_iff.1 hres.symm
  obtain ⟨hl, e, he, -⟩ := endBefore_of_ok hok
  have hz := ((begun_expression p.rules p.opened).readAll hr).leastPrecedence
  constructor
  · intro hpos
    rw [endBefore_of_operand he, endOn, hl, takesOperator_of_zero hz, decide_eq_true hpos] at hok
    cases hok
  · intro hname hparen
    obtain ⟨x, l, hp⟩ := named_of_endsInName hr hname
    obtain ⟨t, hmt, -, ht⟩ := Upcoming.moves_of_lexeme hparen Lexeme.noConfusion
    have hnone := hn t (by rw [hmt.tokens]; rfl)
    rw [read?, hp] at hnone
    simp [Token.isChar, ht] at hnone

/-- An expression that cannot be read violates the grammar. -/
theorem expression_error {f : Failure} (h : p.expression.1 = .error f) :
    f.diagnostic.cause.isGrammatical = true := by
  obtain ⟨us, r, t, -, -, -, -, he⟩ :=
    runOn_ends p.rules p.upcoming.last (.expression p.opened) p.upcoming.tokens
  change ((Reader.expression p.opened).runOn p.rules p.upcoming.last
    p.upcoming.tokens).result = .error f at h
  rw [he] at h
  obtain ⟨fault, hf, rfl⟩ := Except.mapError_eq_error_iff.1 h
  refine Fault.isGrammatical_cause ?_ _
  rintro rfl
  exact r.endBefore_ne_unnamedCallee _ hf

/-- What is read as an expression are its tokens, up to where it ends. -/
theorem expression_ok_iff {v : Upcoming} (hm : p.upcoming.Moves us v) :
    (∃ n, p.expression = (.ok n, { p with upcoming := v })) ↔
      IsExpressionBefore p.rules (p.rules.maxDepth - p.opened) (us.map (·.token)) v.lexeme := by
  constructor
  · rintro ⟨n, h⟩
    obtain ⟨e, us', hf, -, hm', ht⟩ := expression_of_ok h
    obtain rfl := hm.unique hm'
    exact ⟨e, ht.symm, hf, expression_endsBefore h hm⟩
  · rintro ⟨e, ht, hf, hn⟩
    have hv : p.upcoming.withTokens v.tokens = v := hm.withTokens_eq
    have h := expression_of_fits (p := p) hf hm.tokens ht.symm (by rw [hv, ht]; exact hn)
    rw [hv] at h
    exact ⟨_, h⟩

/-- Reading an expression takes in the one front of the tokens to come that is an expression and
ends where it does. If there is none, the reading fails against the grammar. -/
theorem expression_takes_maximal (p : Parser) :
    (∀ us v, p.upcoming.Moves us v →
      ((∃ n, p.expression = (.ok n, { p with upcoming := v })) ↔
        IsExpressionBefore p.rules (p.rules.maxDepth - p.opened) (us.map (·.token)) v.lexeme)) ∧
      (∀ us v us' v', p.upcoming.Moves us v → p.upcoming.Moves us' v' →
        IsExpressionBefore p.rules (p.rules.maxDepth - p.opened) (us.map (·.token)) v.lexeme →
        IsExpressionBefore p.rules (p.rules.maxDepth - p.opened) (us'.map (·.token)) v'.lexeme →
          us = us' ∧ v = v') ∧
      ((∃ f, p.expression.1 = .error f ∧ f.diagnostic.cause.isGrammatical = true) ↔
        ∀ us v, p.upcoming.Moves us v → ¬ IsExpressionBefore p.rules
          (p.rules.maxDepth - p.opened) (us.map (·.token)) v.lexeme) := by
  refine ⟨fun us v hm => expression_ok_iff hm, fun us v us' v' hm hm' he he' => ?_, ?_, ?_⟩
  · obtain ⟨n, h⟩ := (expression_ok_iff hm).2 he
    obtain ⟨n', h'⟩ := (expression_ok_iff hm').2 he'
    obtain rfl : v = v' := congrArg (·.2.upcoming) (h.symm.trans h')
    exact ⟨hm.unique hm', rfl⟩
  · rintro ⟨f, hf, -⟩ us v hm he
    obtain ⟨n, h⟩ := (expression_ok_iff hm).2 he
    rw [h] at hf
    cases hf
  · intro hnone
    rcases h : p.expression with ⟨f | n, q⟩
    · exact ⟨f, rfl, expression_error (congrArg Prod.fst h)⟩
    · -- what has been read is such a front
      obtain ⟨e, us, hf, -, hm, ht⟩ := expression_of_ok h
      exact absurd ⟨e, ht.symm, hf, expression_endsBefore h hm⟩ (hnone us _ hm)

/-- Within an expression that is open already, the call in `f(x);` is what is read. -/
theorem expression_of_call_before_semicolon :
    ∃ (p : Parser) (us : List Scanned) (v : Upcoming), p.rules.maxDepth = 3 ∧ p.opened = 1 ∧
      p.upcoming.Moves us v ∧ us.map (·.token.lexeme) =
        [.identifier "f", .char '(', .identifier "x", .char ')'] ∧ v.lexeme = .char ';' ∧
      IsExpressionBefore p.rules 2 (us.map (·.token)) v.lexeme := by
  let scanned (x : Lexeme) : Scanned := ⟨⟨x, ⟨"", 1, 1⟩⟩, .start, 0⟩
  let us := [Lexeme.identifier "f", .char '(', .identifier "x", .char ')'].map scanned
  let before (ts : List Scanned) : Upcoming := ⟨ts, scanned .endOfInput, rfl⟩
  let p : Parser := ⟨⟨.standard, 3, true⟩, before (us ++ [scanned (.char ';')]), true, 1⟩
  have hm : p.upcoming.Moves us (before [scanned (.char ';')]) := ⟨rfl, rfl⟩
  exact ⟨p, us, _, rfl, rfl, hm, rfl, rfl, ((expression_takes_maximal p).1 us _ hm).1 ⟨_, rfl⟩⟩

end Parser

end OperatorGrammar
