import OperatorGrammar.Proofs.Grammar.Form

/-!
What a reading depends on. A form is read from the tokens that it takes and the one behind them;
what comes after that makes no difference, and a semicolon behind the tokens makes no other
difference than the end of the input does. Main statement: `Parser.form_local`.
-/

namespace OperatorGrammar

/-- Two inputs that show a reading the same: they start with the same token, or one of them is at
its end and the other is, too, or starts with a semicolon. -/
inductive Alike : List Scanned → List Scanned → Prop where
  | token (t : Scanned) (us vs : List Scanned) : Alike (t :: us) (t :: vs)
  | nothing : Alike [] []
  | semicolon {s : Scanned} (vs : List Scanned) : s.token.lexeme = .char ';' → Alike [] (s :: vs)

namespace Upcoming

variable {u v w u' v' : Upcoming} {us vs : List Scanned} {a : Scanned}

theorem Moves.of_cons (h : u.Moves (a :: us) v) : u.head = a ∧ u.advance.Moves us v :=
  ⟨head_of_tokens h.tokens, congrArg List.tail h.tokens, h.last⟩

/-- A move over tokens goes through each place between them. -/
theorem Moves.of_append (h : u.Moves (us ++ vs) w) :
    u.Moves us (u.withTokens (vs ++ w.tokens)) ∧ (u.withTokens (vs ++ w.tokens)).Moves vs w :=
  ⟨⟨by rw [h.tokens, List.append_assoc]; rfl, rfl⟩, rfl, h.last⟩

/-- What is alike behind the same tokens is alike in front of them. -/
theorem Moves.alike (hm : u.Moves us v) (hm' : u'.Moves us v') (h : Alike v.tokens v'.tokens) :
    Alike u.tokens u'.tokens := by
  rw [hm.tokens, hm'.tokens]
  cases us with
  | nil => exact h
  | cons t us => exact .token t _ _

theorem Moves.withTokens_eq (h : u.Moves us v) : u.withTokens v.tokens = v := by
  obtain ⟨vs, last, hl⟩ := v
  obtain rfl : last = u.last := h.last
  rfl

theorem lexeme_of_nil (h : u.tokens = []) : u.lexeme = .endOfInput := by
  rw [lexeme, head, h]
  exact u.last_lexeme

/-- No token but the last of all is the end of the input. -/
theorem lexeme_eq_endOfInput_iff (h : ∀ t ∈ u.tokens, t.token.lexeme ≠ .endOfInput) :
    u.lexeme = .endOfInput ↔ u.tokens = [] := by
  refine ⟨?_, lexeme_of_nil⟩
  intro hl
  by_contra hne
  obtain ⟨t, ts, ht⟩ := List.exists_cons_of_ne_nil hne
  rw [lexeme_of_tokens ht] at hl
  exact h t (ht ▸ List.mem_cons_self) hl

/-- The lookaheads of inputs that are alike differ at most in that one is the end of the input and
the other is a semicolon. -/
theorem lexeme_alike (h : Alike u.tokens v.tokens) :
    v.lexeme = u.lexeme ∨ u.lexeme = .endOfInput ∧ v.lexeme = .char ';' := by
  obtain ⟨us, last, hl⟩ := u
  obtain ⟨vs, last', hl'⟩ := v
  cases h with
  | token t us vs => exact .inl rfl
  | nothing => exact .inl (hl'.trans hl.symm)
  | semicolon vs hs => exact .inr ⟨hl, hs⟩

theorem lexeme_eq_iff_of_alike (h : Alike u.tokens v.tokens) {l : Lexeme} (hl : l ≠ .endOfInput)
    (hs : l ≠ .char ';') : v.lexeme = l ↔ u.lexeme = l := by
  rcases lexeme_alike h with he | ⟨he, hv⟩
  · rw [he]
  · rw [he, hv]
    exact ⟨fun h => absurd h.symm hs, fun h => absurd h.symm hl⟩

end Upcoming

/-- The result of a reading, with the failure moved to another token. -/
def failAt {α : Type} (t : Scanned) (x : Except Failure α) : Except Failure α :=
  x.mapError fun f => ⟨f.fault, t⟩

@[simp] theorem failAt_error {α : Type} (t : Scanned) (f : Failure) :
    failAt (α := α) t (.error f) = .error ⟨f.fault, t⟩ := rfl

theorem failAt_map {α β : Type} (t : Scanned) (x : Except Failure α) (f : α → β) :
    failAt t (x.map f) = (failAt t x).map f := by
  cases x <;> rfl

/-! ## Expressions -/

namespace Expression.Reader

variable {R : Rules} {r r' : Reader}

theorem Begun.leastPrecedence {outside : Nat} {ts : List Token} (h : Begun R outside r ts) :
    r.leastPrecedence = some 0 := by
  cases h <;> exact leastPrecedence_of_expression rfl

/-- A semicolon is taken in nowhere. -/
theorem read?_semicolon (h : r.leastPrecedence = some 0) {t : Token} (ht : t.lexeme = .char ';') :
    r.read? R t = none := by
  have operand : ∀ q : Reader, q.readOperand? R t = none := by
    intro q
    simp [readOperand?, ht]
  have on : ∀ e, r.readOn? R e t = none := by
    intro e
    rw [readOn?, ht, takesOperator_eq_false h (by decide), if_neg Bool.false_ne_true]
    split
    · rfl
    · split <;> simp [Token.isChar, ht]
  unfold read?
  split
  · cases r.enter? R with
    | none => rfl
    | some q => exact operand q
  · exact operand r
  · rw [if_neg (by simp [Token.isChar, ht])]
    cases enter? R _ with
    | none => rfl
    | some q => exact operand q
  · rw [if_neg (by simp [Token.isChar, ht])]
    exact on _
  · exact on _

/-- In front of a semicolon a reading ends as it does at the end of the input. -/
theorem endBefore_semicolon (h : r.leastPrecedence = some 0) :
    r.endBefore R (.char ';') = r.endBefore R .endOfInput := by
  have on : ∀ e, r.endOn R e (.char ';') = r.endOn R e .endOfInput := by
    intro e
    rw [endOn, endOn, takesOperator_eq_false h (by decide),
      takesOperator_of_not_pos h (by simp [Rules.precedence, PrecedenceTable.noPrecedence])]
  simp only [endBefore, on]
  rfl

/-- What is refused in front of one input is refused in front of every one that is alike. -/
theorem refuses_alike {vs ws : List Scanned} (h : r.leastPrecedence = some 0) (ha : Alike vs ws)
    (hn : ∀ t ∈ vs.head?, r.read? R t.token = none) :
    ∀ t ∈ ws.head?, r.read? R t.token = none := by
  cases ha with
  | token t us vs => exact hn
  | nothing => exact hn
  | semicolon ws hs =>
    intro t ht
    obtain rfl := Option.some.inj ht
    exact read?_semicolon h hs

theorem endBefore_alike {u v : Upcoming} (h : r.leastPrecedence = some 0)
    (ha : Alike u.tokens v.tokens) : r.endBefore R v.lexeme = r.endBefore R u.lexeme := by
  rcases Upcoming.lexeme_alike ha with he | ⟨he, hv⟩
  · rw [he]
  · rw [he, hv, endBefore_semicolon h]

/-- The token in front of which a reading ends is not taken in. -/
theorem runOn_refuses (R : Rules) (last : Scanned) (r : Reader) (ts : List Scanned) :
    ∃ us r', ts = us ++ (r.runOn R last ts).rest ∧
      r.readAll? R (us.map (·.token)) = some r' ∧
      ∀ t ∈ (r.runOn R last ts).rest.head?, r'.read? R t.token = none := by
  induction ts generalizing r with
  | nil => exact ⟨[], r, rfl, rfl, by simp [runOn]⟩
  | cons t ts ih =>
    simp only [runOn]
    cases hr : r.read? R t.token with
    | some q =>
      obtain ⟨us, r', hu, hq, hn⟩ := ih q
      refine ⟨t :: us, r', congrArg (t :: ·) hu, ?_, hn⟩
      rw [List.map_cons, readAll?_cons, hr]
      exact hq
    | none => exact ⟨[], r, rfl, rfl, by simpa using hr⟩

/-- If tokens are taken in and what is behind them is not, the reading ends there. -/
theorem run_of_readAll {u v : Upcoming} {us : List Scanned} (hm : u.Moves us v)
    (h : r.readAll? R (us.map (·.token)) = some r')
    (hn : ∀ t ∈ v.tokens.head?, r'.read? R t.token = none) :
    r.run R u = ⟨(r'.endBefore R v.lexeme).mapError (⟨·, v.head⟩), v.tokens, r'.leftOpen⟩ := by
  have hv : v.tokens.headD u.last = v.head := by
    rw [Upcoming.head, ← hm.last]
    cases v.tokens <;> rfl
  rw [run, hm.tokens, runOn_of_readAll u.last _ h hn, hv]
  rfl

end Expression.Reader

namespace Parser

open Expression Reader

variable {p q : Parser} {us : List Scanned} {u v : Upcoming}

/-- Reading an expression ends in front of the first token that is not taken in. -/
theorem expression_of_readAll {r : Reader} (hm : p.upcoming.Moves us v)
    (hr : (Reader.expression p.opened).readAll? p.rules (us.map (·.token)) = some r)
    (hn : ∀ t ∈ v.tokens.head?, r.read? p.rules t.token = none) :
    p.expression =
      ((r.endBefore p.rules v.lexeme).mapError (⟨·, v.head⟩), { p with upcoming := v }) := by
  have hb := (begun_expression p.rules p.opened).readAll hr
  rw [expression, run, run_of_readAll hm hr hn, hb.leftOpen, hm.withTokens_eq]

theorem expression_local (p : Parser) :
    ∃ us, p.upcoming.Moves us p.expression.2.upcoming ∧
      ∀ u v, u.Moves us v → Alike p.expression.2.upcoming.tokens v.tokens →
        { p with upcoming := u }.expression =
          (failAt v.head p.expression.1, { p with upcoming := v }) := by
  obtain ⟨us, r, hu, hr, hn⟩ :=
    runOn_refuses p.rules p.upcoming.last (.expression p.opened) p.upcoming.tokens
  have hz := ((begun_expression p.rules p.opened).readAll hr).leastPrecedence
  have hm : p.upcoming.Moves us p.expression.2.upcoming := Upcoming.moves_withTokens hu
  refine ⟨us, hm, ?_⟩
  intro u v hm' ha
  have he := congrArg Prod.fst (expression_of_readAll hm hr hn)
  rw [expression_of_readAll (p := { p with upcoming := u }) hm' hr (refuses_alike hz ha hn), he,
    endBefore_alike hz ha, failAt]
  cases r.endBefore p.rules p.expression.2.upcoming.lexeme <;> rfl

end Parser

/-! ## Prototypes -/

namespace Prototype

variable {u : Upcoming} {x : String} {left : List Scanned}

/-! Reading a prototype can end in five ways. -/

theorem read_of_unnamed (h : ∀ x, u.lexeme ≠ .identifier x) :
    read u = missing .functionName u := by
  unfold read
  split
  · exact absurd ‹_› (h _)
  · rfl

theorem read_of_unopened (hx : u.lexeme = .identifier x) (ho : u.advance.lexeme ≠ .char '(') :
    read u = missing .parametersOpening u.advance := by
  simp only [read, hx, if_neg ho]

theorem read_of_duplicate {f : Failure} (hx : u.lexeme = .identifier x)
    (ho : u.advance.lexeme = .char '(')
    (hr : readParameters [] u.advance.advance.tokens = (.error f, left)) :
    read u = (.error f, u.withTokens left) := by
  simp only [read, hx, ho, if_true, hr]

theorem read_of_unclosed {ps : List String} (hx : u.lexeme = .identifier x)
    (ho : u.advance.lexeme = .char '(')
    (hr : readParameters [] u.advance.advance.tokens = (.ok ps, left))
    (hc : (u.withTokens left).lexeme ≠ .char ')') :
    read u = missing .parametersClosing (u.withTokens left) := by
  simp only [read, hx, ho, if_true, hr, if_neg hc]

theorem read_of_closed {ps : List String} (hx : u.lexeme = .identifier x)
    (ho : u.advance.lexeme = .char '(')
    (hr : readParameters [] u.advance.advance.tokens = (.ok ps, left))
    (hc : (u.withTokens left).lexeme = .char ')') :
    read u = (.ok ⟨x, ps, some u.head.token.location⟩, (u.withTokens left).advance) := by
  simp only [read, hx, ho, if_true, hr, hc]

theorem readParameters_local (read : List String) (ts : List Scanned) :
    ∃ us, ts = us ++ (readParameters read ts).2 ∧
      ∀ vs, Alike (readParameters read ts).2 vs →
        readParameters read (us ++ vs) = ((readParameters read ts).1, vs) := by
  induction ts generalizing read with
  | nil =>
    refine ⟨[], rfl, ?_⟩
    intro vs ha
    cases ha with
    | nothing => rfl
    | semicolon vs hs => simp only [List.nil_append, readParameters, hs]
  | cons t ts ih =>
    by_cases hx : ∃ x, t.token.lexeme = .identifier x ∧ x ∉ read
    · obtain ⟨x, hx, hm⟩ := hx
      obtain ⟨us, hu, hl⟩ := ih (x :: read)
      have step : ∀ vs, readParameters read (t :: vs) = readParameters (x :: read) vs := by
        intro vs
        simp only [readParameters, hx, if_neg hm]
      rw [step]
      refine ⟨t :: us, congrArg (t :: ·) hu, ?_⟩
      intro vs ha
      rw [List.cons_append, step]
      exact hl vs ha
    · -- the token is no parameter, or has been one: what is behind it is not looked at
      have stop : ∃ result, ∀ vs, readParameters read (t :: vs) = (result, t :: vs) := by
        cases hl : t.token.lexeme with
        | identifier x =>
          have hm : x ∈ read := by
            by_contra hm
            exact hx ⟨x, hl, hm⟩
          exact ⟨.error ⟨.duplicateParameter x, t⟩, fun vs => by
            simp only [readParameters, hl, if_pos hm]⟩
        | _ => exact ⟨.ok read.reverse, fun vs => by simp only [readParameters, hl]⟩
      obtain ⟨result, stop⟩ := stop
      rw [stop]
      refine ⟨[], rfl, ?_⟩
      intro vs ha
      cases ha with
      | token t us vs => exact stop vs

/-- A prototype is read from the tokens that are taken and the one behind them. -/
theorem read_local (u : Upcoming) :
    ∃ us, u.Moves us (read u).2 ∧
      ∀ u' v, u'.Moves us v → Alike (read u).2.tokens v.tokens →
        read u' = (failAt v.head (read u).1, v) := by
  by_cases hx : ∃ x, u.lexeme = .identifier x
  case neg =>
    have hn : ∀ x, u.lexeme ≠ .identifier x := fun x h => hx ⟨x, h⟩
    rw [read_of_unnamed hn]
    refine ⟨[], .refl u, ?_⟩
    intro u' v hm ha
    obtain rfl := hm.eq_of_nil
    apply read_of_unnamed
    intro x hv
    exact hn x ((Upcoming.lexeme_eq_iff_of_alike ha (by simp) (by simp)).1 hv)
  obtain ⟨x, hx⟩ := hx
  obtain ⟨a, hma, hua, hax⟩ := Upcoming.moves_of_lexeme hx (by simp)
  by_cases ho : u.advance.lexeme = .char '('
  case neg =>
    rw [read_of_unopened hx ho]
    refine ⟨[a], hma, ?_⟩
    intro u' v hm ha
    obtain ⟨hhead, hm'⟩ := hm.of_cons
    obtain rfl := hm'.eq_of_nil
    have hx' : u'.lexeme = .identifier x := by rw [Upcoming.lexeme, hhead, hax]
    apply read_of_unopened hx'
    rwa [ne_eq, Upcoming.lexeme_eq_iff_of_alike ha (l := .char '(') (by simp) (by decide)]
  obtain ⟨b, hmb, -, hbx⟩ := Upcoming.moves_of_lexeme ho (by simp)
  obtain ⟨ps, hps, hlocal⟩ := readParameters_local [] u.advance.advance.tokens
  -- behind the parenthesis the parameters are found again
  have again : ∀ {u' v : Upcoming}, u'.Moves (a :: b :: ps) v →
      Alike (readParameters [] u.advance.advance.tokens).2 v.tokens →
      u'.lexeme = .identifier x ∧ u'.advance.lexeme = .char '(' ∧
        readParameters [] u'.advance.advance.tokens =
          ((readParameters [] u.advance.advance.tokens).1, v.tokens) ∧ u'.head = a := by
    intro u' v hm ha
    obtain ⟨hhead, hm₁⟩ := hm.of_cons
    obtain ⟨hopening, hm₂⟩ := hm₁.of_cons
    refine ⟨by rw [Upcoming.lexeme, hhead, hax], by rw [Upcoming.lexeme, hopening, hbx], ?_, hhead⟩
    rw [hm₂.tokens]
    exact hlocal v.tokens ha
  rcases hr : readParameters [] u.advance.advance.tokens with ⟨f | names, left⟩
  all_goals
    rw [hr] at hps again
    have hleft : u.Moves (a :: b :: ps) (u.withTokens left) :=
      (hma.trans hmb).trans (Upcoming.moves_withTokens hps)
  case error =>
    rw [read_of_duplicate hx ho hr]
    refine ⟨_, hleft, ?_⟩
    intro u' v hm ha
    obtain ⟨hx', ho', hr', -⟩ := again hm ha
    -- the token that shows the fault is the one that is alike
    obtain ⟨rest, hf⟩ := (readParameters_spec [] u.advance.advance.tokens).2 f (by rw [hr])
    have htoken : f.token = v.head := by
      rw [hr] at hf
      change left = f.token :: rest at hf
      change Alike left v.tokens at ha
      rw [hf] at ha
      unfold Upcoming.head
      generalize v.tokens = vs at ha
      cases ha
      rfl
    rw [read_of_duplicate hx' ho' hr', hm.withTokens_eq, failAt_error, ← htoken]
  case ok =>
    by_cases hc : (u.withTokens left).lexeme = .char ')'
    · obtain ⟨c, hmc, -, hcx⟩ := Upcoming.moves_of_lexeme hc (by simp)
      rw [read_of_closed hx ho hr hc]
      refine ⟨_, hleft.trans hmc, ?_⟩
      intro u' v hm ha
      obtain ⟨hm₁, hm₂⟩ := hm.of_append
      obtain ⟨hx', ho', hr', hhead'⟩ := again hm₁ (hmc.alike hm₂ ha)
      have hc' : (u'.withTokens ([c] ++ v.tokens)).lexeme = .char ')' := by
        rw [Upcoming.lexeme, hm₂.of_cons.1, hcx]
      rw [read_of_closed hx' ho' hr' hc', hhead', hua, ← hm.withTokens_eq]
      rfl
    · rw [read_of_unclosed hx ho hr hc]
      refine ⟨_, hleft, ?_⟩
      intro u' v hm ha
      obtain ⟨hx', ho', hr', -⟩ := again hm ha
      rw [read_of_unclosed hx' ho' hr', hm.withTokens_eq]
      · rfl
      · rwa [hm.withTokens_eq, ne_eq,
          Upcoming.lexeme_eq_iff_of_alike ha (l := .char ')') (by simp) (by decide)]

end Prototype

/-! ## Forms -/

namespace Parser

variable {p : Parser} {t : Scanned} {ts : List Scanned}

theorem prototype_local (ht : p.upcoming.tokens = t :: ts) :
    ∃ us, p.upcoming.Moves (t :: us) p.next.prototype.2.upcoming ∧
      ∀ u v, u.Moves (t :: us) v → Alike p.next.prototype.2.upcoming.tokens v.tokens →
        { p with upcoming := u }.next.prototype =
          (failAt v.head p.next.prototype.1, { p with upcoming := v }) := by
  obtain ⟨us, hm, hl⟩ := Prototype.read_local p.next.upcoming
  have hmt := p.upcoming.moves_advance
  rw [ht] at hmt
  refine ⟨us, hmt.trans hm, ?_⟩
  intro u v hu ha
  have hr := hl u.advance v hu.of_cons.2 ha
  simp only [prototype, next, hr]

theorem external_local (ht : p.upcoming.tokens = t :: ts) :
    ∃ us, p.upcoming.Moves us p.external.2.upcoming ∧
      ∀ u v, u.Moves us v → Alike p.external.2.upcoming.tokens v.tokens →
        { p with upcoming := u }.external =
          (failAt v.head p.external.1, { p with upcoming := v }) := by
  obtain ⟨us, hm, hl⟩ := prototype_local ht
  refine ⟨t :: us, hm, ?_⟩
  intro u v hu ha
  simp only [external, hl u v hu ha, failAt_map]

theorem definition_local (ht : p.upcoming.tokens = t :: ts) :
    ∃ us, p.upcoming.Moves us p.definition.2.upcoming ∧
      ∀ u v, u.Moves us v → Alike p.definition.2.upcoming.tokens v.tokens →
        { p with upcoming := u }.definition =
          (failAt v.head p.definition.1, { p with upcoming := v }) := by
  obtain ⟨us, hm, hl⟩ := prototype_local ht
  rcases hq : p.next.prototype with ⟨f | proto, q⟩
  case error =>
    rw [definition_of_error hq]
    rw [hq] at hm hl
    exact ⟨t :: us, hm, fun u v hu ha => definition_of_error (hl u v hu ha)⟩
  case ok =>
    obtain ⟨vs, hmv, hlv⟩ := q.expression_local
    rw [definition_of_ok hq]
    rw [hq] at hm hl
    refine ⟨t :: us ++ vs, hm.trans hmv, ?_⟩
    intro u w hu ha
    -- the place between the prototype and the body is alike, too
    obtain ⟨hu₁, hu₂⟩ := hu.of_append
    have hproto := hl u _ hu₁ (hmv.alike hu₂ ha)
    have same : ∀ w, ({ p with upcoming := w } : Parser) = { q with upcoming := w } := by
      intro w
      rw [prototype_keeps hq]
    have hbody : { p with upcoming := u.withTokens (vs ++ w.tokens) }.expression =
        (failAt w.head q.expression.1, { p with upcoming := w }) := by
      rw [same (u.withTokens _), same w]
      exact hlv _ w hu₂ ha
    rw [definition_of_ok hproto, hbody, failAt_map, hu.of_cons.1, Upcoming.head_of_tokens ht]

theorem topLevelExpression_local (p : Parser) :
    ∃ us, p.upcoming.Moves us p.topLevelExpression.2.upcoming ∧
      ∀ u v, u.Moves us v → Alike p.topLevelExpression.2.upcoming.tokens v.tokens →
        { p with upcoming := u }.topLevelExpression =
          (failAt v.head p.topLevelExpression.1, { p with upcoming := v }) := by
  obtain ⟨us, hm, hl⟩ := p.expression_local
  refine ⟨us, hm, ?_⟩
  intro u v hu ha
  simp only [topLevelExpression, hl u v hu ha]
  cases hb : p.expression.1 with
  | error f => rfl
  | ok b =>
    -- an expression has a first token, whose place the tree remembers
    cases us with
    | nil =>
      have hn : p.topLevelExpression.1 = .ok (.function (.anonymous (some
          p.upcoming.head.token.location)) b (some p.upcoming.head.token.location)) := by
        simp only [topLevelExpression, hb, Except.map]
      have hlt := p.topLevelExpression_length_lt hn
      rw [hm.tokens] at hlt
      exact absurd hlt (Nat.lt_irrefl _)
    | cons a us =>
      rw [hu.of_cons.1, hm.of_cons.1]
      rfl

/-- A form is read from the tokens that it takes and the one behind them. In front of a semicolon a
form that is cut off fails as it does at the end of the input. -/
theorem form_local (hne : p.upcoming.tokens ≠ []) (kind : FormKind) :
    ∃ us, p.upcoming.Moves us (p.form kind).2.upcoming ∧
      ∀ u v, u.Moves us v → Alike (p.form kind).2.upcoming.tokens v.tokens →
        { p with upcoming := u }.form kind =
          (failAt v.head (p.form kind).1, { p with upcoming := v }) := by
  obtain ⟨t, ts, ht⟩ := List.exists_cons_of_ne_nil hne
  cases kind with
  | definition => exact definition_local ht
  | external => exact external_local ht
  | expression => exact p.topLevelExpression_local

end Parser

end OperatorGrammar
