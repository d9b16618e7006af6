import OperatorGrammar.Proofs.Locality

/-!
Reading by descent. An operand is read the same wherever it stands: what a reader does with its
tokens does not depend on the chain in front of it. So the rest of a chain is an operator, an
operand and the rest behind that. Main statement: `Reader.Within.runOn`, from which
`Parser.chainOn_of_operator` is.
-/

namespace OperatorGrammar

namespace Expression

/-- The least precedence of an operator that goes on with the outermost chain. -/
def Goal.least? : Goal → Option Int
  | .operand => none
  | .expression => some 0
  | .rest least => some least

namespace Reader

/-! ## An operand within a chain -/

/-- A reader of an operand that stands alone, and a reader with any other goal that has got equally
far with the same operand, behind the chain `outer`. -/
inductive Within (goal : Goal) (outer : Chain) : Reader → Reader → Prop where
  | outermost (progress : Progress) (opened : Nat) :
    Within goal outer ⟨.operand, [], [], progress, opened⟩ ⟨goal, [], outer, progress, opened⟩
  | inner (levels : List Level) (enclosure : Enclosure) (chain : Chain) (progress : Progress)
    (opened : Nat) :
    Within goal outer ⟨.operand, levels ++ [⟨[], enclosure⟩], chain, progress, opened⟩
      ⟨goal, levels ++ [⟨outer, enclosure⟩], chain, progress, opened⟩

variable {R : Rules} {r r' : Reader} {goal : Goal} {least : Int} {outer : Chain} {e : Node}
  {t : Token}

theorem Within.progress (h : Within goal outer r r') : r'.progress = r.progress := by
  cases h <;> rfl

theorem Within.opened (h : Within goal outer r r') : r'.opened = r.opened := by
  cases h <;> rfl

theorem Within.withProgress (h : Within goal outer r r') (progress : Progress) :
    Within goal outer { r with progress := progress } { r' with progress := progress } := by
  cases h with
  | outermost => exact .outermost ..
  | inner => exact .inner ..

theorem Within.push (h : Within goal outer r r') (enclosure : Enclosure) :
    Within goal outer (r.push enclosure) (r'.push enclosure) := by
  cases h with
  | outermost _ opened => exact .inner [] enclosure [] .entering opened
  | inner levels _ chain _ opened => exact .inner (⟨chain, enclosure⟩ :: levels) _ [] .entering opened

theorem Within.enter? (h : Within goal outer r r') :
    Option.Rel (Within goal outer) (r.enter? R) (r'.enter? R) := by
  unfold Reader.enter?
  rw [h.opened]
  by_cases ho : r.opened < R.maxDepth
  · rw [if_pos ho, if_pos ho]
    cases h with
    | outermost => exact .some (.outermost ..)
    | inner => exact .some (.inner ..)
  · rw [if_neg ho, if_neg ho]
    exact .none

theorem Within.readOperand? (h : Within goal outer r r') (t : Token) :
    Option.Rel (Within goal outer) (r.readOperand? R t) (r'.readOperand? R t) := by
  obtain ⟨lexeme, l⟩ := t
  cases lexeme with
  | identifier x => exact .some (h.withProgress _)
  | number text =>
    simp only [Reader.readOperand?]
    split
    · exact .some (h.withProgress _)
    · exact .none
  | char c =>
    simp only [Reader.readOperand?]
    split
    · exact .some (h.push .group)
    · exact .none
  | _ => exact .none

theorem Within.enterOperand? (h : Within goal outer r r') (t : Token) :
    Option.Rel (Within goal outer) ((r.enter? R).bind (Reader.readOperand? R · t))
      ((r'.enter? R).bind (Reader.readOperand? R · t)) := by
  have he := h.enter? (R := R)
  revert he
  generalize r.enter? R = q, r'.enter? R = q'
  intro he
  cases he with
  | none => exact .none
  | some hq => exact hq.readOperand? t

/-- In the innermost parenthesis both readers have the same chain, and both are left with readers
of the operand when it is closed. -/
theorem Within.exists_level (h : Within goal outer r r') (hl : r.levels ≠ []) :
    ∃ o o' enclosure levels levels', r.levels = ⟨o, enclosure⟩ :: levels ∧
      r'.levels = ⟨o', enclosure⟩ :: levels' ∧ r'.chain = r.chain ∧
      ∀ progress opened, Within goal outer ⟨.operand, levels, o, progress, opened⟩
        ⟨goal, levels', o', progress, opened⟩ := by
  cases h with
  | outermost => exact absurd rfl hl
  | inner levels enclosure chain progress opened =>
    cases levels with
    | nil => exact ⟨[], outer, enclosure, [], [], rfl, rfl, rfl, .outermost⟩
    | cons level levels =>
      exact ⟨level.chain, level.chain, level.enclosure, _, _, rfl, rfl, rfl,
        .inner levels enclosure level.chain⟩

theorem Within.goals (h : Within goal outer r r') : r.goal = .operand ∧ r'.goal = goal := by
  cases h <;> exact ⟨rfl, rfl⟩

/-- In a parenthesis, a token behind a complete operand goes on alike. -/
theorem Within.readOn? (h : Within goal outer r r') (hl : r.levels ≠ []) (e : Node) (t : Token) :
    Option.Rel (Within goal outer) (r.readOn? R e t) (r'.readOn? R e t) := by
  obtain ⟨o, o', enclosure, levels, levels', hlevels, hlevels', hchain, hleft⟩ := h.exists_level hl
  have hz := leastPrecedence_of_levels hlevels
  have hz' := leastPrecedence_of_levels hlevels'
  by_cases hop : 0 < R.precedence t.lexeme
  · obtain ⟨lexeme, l⟩ := t
    obtain ⟨c, rfl⟩ := R.exists_char_of_precedence_pos hop
    rw [readOn?_operator hz hop, readOn?_operator hz' hop]
    cases h with
    | outermost => exact absurd rfl hl
    | inner => exact .some (.inner ..)
  · obtain ⟨hgoal, hgoal'⟩ := h.goals
    unfold Reader.readOn?
    rw [takesOperator_of_not_pos hz hop, takesOperator_of_not_pos hz' hop, hlevels, hlevels',
      hchain, h.opened, hgoal, hgoal', h.progress]
    rw [if_neg Bool.false_ne_true, if_neg Bool.false_ne_true]
    cases enclosure with
    | group =>
      dsimp only
      split
      · exact .some (hleft _ _)
      · exact .none
    | call f l arguments =>
      dsimp only
      split
      · exact .some (hleft _ _)
      · split
        · exact .some ((hleft _ _).push _)
        · exact .none

/-- Before the operand is complete, a token goes on alike. -/
theorem Within.read? (h : Within goal outer r r')
    (hn : r.levels = [] → r.progress.operand? = none) (t : Token) :
    Option.Rel (Within goal outer) (r.read? R t) (r'.read? R t) := by
  have hl : ∀ {e}, r.progress.operand? = some e → r.levels ≠ [] := by
    intro e he hnil
    rw [hn hnil] at he
    cases he
  unfold Reader.read?
  rw [h.progress]
  cases hp : r.progress with
  | entering => exact h.enterOperand? t
  | operand => exact h.readOperand? t
  | arguments f l =>
    dsimp only
    split
    · exact .some (h.withProgress _)
    · exact (h.push _).enterOperand? t
  | named x l =>
    dsimp only
    split
    · exact .some (h.withProgress _)
    · exact h.readOn? (hl (by rw [hp]; rfl)) _ t
  | complete e => exact h.readOn? (hl (by rw [hp]; rfl)) e t

/-- Before the operand is complete, both readings fail alike if they end. -/
theorem Within.endBefore (h : Within goal outer r r')
    (hn : r.levels = [] → r.progress.operand? = none) (next : Lexeme) :
    ∃ fault, r.endBefore R next = .error fault ∧ r'.endBefore R next = .error fault := by
  have on : ∀ e, r.progress.operand? = some e →
      ∃ fault, r.endOn R e next = .error fault ∧ r'.endOn R e next = .error fault := by
    intro e he
    have hl : r.levels ≠ [] := by
      intro hnil
      rw [hn hnil] at he
      cases he
    obtain ⟨o, o', enclosure, levels, levels', hlevels, hlevels', -, -⟩ := h.exists_level hl
    unfold Reader.endOn
    rw [hlevels, hlevels']
    cases enclosure <;> exact ⟨_, rfl, rfl⟩
  have hentry : r'.entryFault R next = r.entryFault R next := by
    rw [entryFault, entryFault, h.opened]
  unfold Reader.endBefore
  rw [h.progress, hentry]
  cases hp : r.progress with
  | named x l => exact on _ (by rw [hp]; rfl)
  | complete e => exact on _ (by rw [hp]; rfl)
  | _ => exact ⟨_, rfl, rfl⟩

/-! ## Behind an operand -/

/-- Behind an operand, it does not matter whether a name could have been that of a call. -/
theorem runOn_of_operand {chain : Chain} {progress : Progress} {opened : Nat}
    (he : progress.operand? = some e) (last : Scanned) {ts : List Scanned}
    (hn : ∀ t ∈ ts.head?, ∀ x l, progress = .named x l → t.token.isChar '(' = false) :
    runOn R last ⟨goal, [], chain, progress, opened⟩ ts =
      runOn R last ⟨goal, [], chain, .complete e, opened⟩ ts := by
  cases progress with
  | complete d =>
    obtain rfl : d = e := Option.some.inj he
    rfl
  | named x l =>
    obtain rfl : .reference x (some l) = e := Option.some.inj he
    cases ts with
    | nil => rfl
    | cons t ts =>
      have hparen := hn t rfl x l rfl
      simp only [runOn, Reader.read?, hparen, Bool.false_eq_true, if_false]
      rfl
  | _ => cases he

/-- An operand that stands alone ends in front of anything but the parenthesis of a call. -/
theorem runOn_alone {progress : Progress} {opened : Nat} (he : progress.operand? = some e)
    (last : Scanned) {ts : List Scanned}
    (hn : ∀ t ∈ ts.head?, ∀ x l, progress = .named x l → t.token.isChar '(' = false) :
    runOn R last ⟨.operand, [], [], progress, opened⟩ ts = ⟨.ok e, ts, opened⟩ := by
  rw [runOn_of_operand he last hn]
  cases ts with
  | nil => simp [runOn, endBefore, endOn, takesOperator, leastPrecedence, Reader.leftOpen,
      openHere, Chain.close, Chain.inOrder, Chain.climb, Chain.joinAll, Except.mapError]
  | cons t ts => simp [runOn, Reader.read?, Reader.readOn?, endBefore, endOn, takesOperator,
      leastPrecedence, Reader.leftOpen, openHere, Chain.close, Chain.inOrder, Chain.climb,
      Chain.joinAll, Except.mapError]

/-- The operand is complete, and no parenthesis is open. -/
theorem Within.eq_of_complete (h : Within goal outer r r')
    (hn : ¬ (r.levels = [] → r.progress.operand? = none)) :
    ∃ progress opened e, progress.operand? = some e ∧ r = ⟨.operand, [], [], progress, opened⟩ ∧
      r' = ⟨goal, [], outer, progress, opened⟩ := by
  rw [Classical.not_imp] at hn
  obtain ⟨hl, he⟩ := hn
  obtain ⟨e, he⟩ := Option.ne_none_iff_exists'.1 he
  cases h with
  | outermost progress opened => exact ⟨progress, opened, e, he, rfl, rfl⟩
  | inner => exact absurd hl (List.append_ne_nil_of_right_ne_nil _ (List.cons_ne_nil _ _))

/-- Before the operand is complete, both readings fail alike in front of a token that is not taken
in. -/
theorem Within.fails (h : Within goal outer r r')
    (hn : r.levels = [] → r.progress.operand? = none) (t : Scanned) :
    ∃ f : Failure, (r.endBefore R t.token.lexeme).mapError (Failure.mk · t) = .error f ∧
      (r'.endBefore R t.token.lexeme).mapError (Failure.mk · t) = .error f := by
  obtain ⟨fault, he, he'⟩ := h.endBefore hn t.token.lexeme (R := R)
  rw [he, he']
  exact ⟨_, rfl, rfl⟩

/-- The reading of a chain fails as the reading of its next operand alone does, and else it goes on
behind that operand. -/
structure GoesOn (R : Rules) (last : Scanned) (goal : Goal) (outer : Chain) (alone within : Ending) :
    Prop where
  error : ∀ f, alone.result = .error f → within.result = .error f
  ok : ∀ e, alone.result = .ok e →
    within = runOn R last ⟨goal, [], outer, .complete e, alone.opened⟩ alone.rest

theorem GoesOn.of_error {last : Scanned} {alone within : Ending} {f : Failure}
    (h : alone.result = .error f) (h' : within.result = .error f) :
    GoesOn R last goal outer alone within where
  error := by
    intro f' hf
    rwa [h', ← h]
  ok := by
    intro e he
    rw [h] at he
    cases he

theorem GoesOn.of_operand {progress : Progress} {opened : Nat} (he : progress.operand? = some e)
    (last : Scanned) {ts : List Scanned}
    (hn : ∀ t ∈ ts.head?, ∀ x l, progress = .named x l → t.token.isChar '(' = false) :
    GoesOn R last goal outer (runOn R last ⟨.operand, [], [], progress, opened⟩ ts)
      (runOn R last ⟨goal, [], outer, progress, opened⟩ ts) := by
  rw [runOn_alone he last hn, runOn_of_operand he last hn]
  constructor
  case error =>
    intro f hf
    cases hf
  case ok =>
    intro e' he'
    obtain rfl := Except.ok.inj he'
    rfl

/-- Within a chain, an operand is read as it is read alone. -/
theorem Within.runOn (h : Within goal outer r r') (last : Scanned) (ts : List Scanned) :
    GoesOn R last goal outer (r.runOn R last ts) (r'.runOn R last ts) := by
  induction ts generalizing r r' with
  | nil =>
    by_cases hn : r.levels = [] → r.progress.operand? = none
    · obtain ⟨f, hr, hr'⟩ := h.fails (R := R) hn last
      exact .of_error hr hr'
    · obtain ⟨progress, opened, e, he, rfl, rfl⟩ := h.eq_of_complete hn
      refine .of_operand he last ?_
      intro t ht
      cases ht
  | cons t ts ih =>
    by_cases hn : r.levels = [] → r.progress.operand? = none
    · have hread := h.read? (R := R) hn t.token
      rw [Reader.runOn, Reader.runOn]
      revert hread
      generalize r.read? R t.token = q, r'.read? R t.token = q'
      intro hread
      cases hread with
      | some hq => exact ih hq
      | none =>
        obtain ⟨f, hr, hr'⟩ := h.fails (R := R) hn t
        exact .of_error hr hr'
    · obtain ⟨progress, opened, e, he, rfl, rfl⟩ := h.eq_of_complete hn
      by_cases hcall : ∀ x l, progress = .named x l → t.token.isChar '(' = false
      · refine .of_operand he last ?_
        intro u hu
        obtain rfl := Option.some.inj hu
        exact hcall
      · -- the operand turns out to be a call, for both readers
        simp only [not_forall, Bool.not_eq_false] at hcall
        obtain ⟨x, l, rfl, hparen⟩ := hcall
        have hread : ∀ goal chain, Reader.read? R ⟨goal, [], chain, .named x l, opened⟩ t.token =
            some ⟨goal, [], chain, .arguments x l, opened⟩ := by
          intro goal chain
          simp [Reader.read?, hparen]
        rw [Reader.runOn, Reader.runOn, hread, hread]
        exact ih (.outermost ..)

/-! ## Behind an operand of a chain -/

theorem takesOperator_outermost (R : Rules) (hg : goal.least? = some least) (outer : Chain)
    (progress : Progress) (opened : Nat) (l : Lexeme) :
    takesOperator R ⟨goal, [], outer, progress, opened⟩ l = decide (least ≤ R.precedence l) := by
  cases goal <;> cases hg <;> rfl

/-- A chain is over in front of what binds too loosely. -/
theorem run_of_looser {opened : Nat} {u : Upcoming} (hg : goal.least? = some least)
    (h : R.precedence u.lexeme < least) :
    Reader.run R ⟨goal, [], outer, .complete e, opened⟩ u =
      ⟨.ok (outer.close e), u.tokens, leftOpen ⟨goal, [], outer, .complete e, opened⟩⟩ := by
  have htakes := takesOperator_outermost R hg outer (.complete e) opened u.lexeme
  rw [decide_eq_false (Int.not_le.2 h)] at htakes
  obtain ⟨tokens, last, hlast⟩ := u
  cases tokens with
  | nil =>
    change takesOperator R _ last.token.lexeme = false at htakes
    simp [run, runOn, endBefore, endOn, htakes, Except.mapError]
  | cons t ts =>
    change takesOperator R _ t.token.lexeme = false at htakes
    simp [run, runOn, Reader.read?, Reader.readOn?, endBefore, endOn, htakes, Except.mapError]

/-- Behind an operator an operand has to follow. The end of the input is none, even if it counts as
an operator. -/
theorem run_of_operator {opened : Nat} {u : Upcoming} (hg : goal.least? = some least)
    (h : least ≤ R.precedence u.lexeme) :
    Reader.run R ⟨goal, [], outer, .complete e, opened⟩ u =
      Reader.run R ⟨goal, [],
        (e, ⟨u.lexeme.text, R.precedence u.lexeme, u.head.token.location⟩) :: outer,
        .operand, opened⟩ u.advance := by
  have htakes := takesOperator_outermost R hg outer (.complete e) opened u.lexeme
  rw [decide_eq_true h] at htakes
  obtain ⟨tokens, last, hlast⟩ := u
  cases tokens with
  | nil =>
    change takesOperator R _ last.token.lexeme = true at htakes
    rw [hlast] at htakes
    simp [run, runOn, endBefore, endOn, htakes, hlast, operandFault, Reader.leftOpen, openHere]
  | cons t ts =>
    change takesOperator R _ t.token.lexeme = true at htakes
    simp [run, runOn, Reader.read?, Reader.readOn?, htakes, Upcoming.lexeme, Upcoming.head]

/-- An expression starts with an operand. -/
theorem run_expression {opened : Nat} (h : opened < R.maxDepth) (u : Upcoming) :
    Reader.run R (.expression opened) u =
      Reader.run R ⟨.expression, [], [], .operand, opened + 1⟩ u := by
  have hread : ∀ t, Reader.read? R (.expression opened) t =
      Reader.read? R ⟨.expression, [], [], .operand, opened + 1⟩ t := by
    intro t
    rw [read?_entering rfl h]
    rfl
  have hend : ∀ next, Reader.endBefore R (.expression opened) next =
      Reader.endBefore R ⟨.expression, [], [], .operand, opened + 1⟩ next := by
    intro next
    have hentry : entryFault R (.expression opened) next = operandFault next := if_pos h
    exact congrArg Except.error hentry
  obtain ⟨tokens, last, hlast⟩ := u
  cases tokens with
  | nil =>
    rw [run, run, runOn, runOn, hend]
    rfl
  | cons t ts =>
    rw [run, run, runOn, runOn, hread, hend]
    rfl

end Reader

end Expression

namespace Parser

open Expression Reader

variable {p q : Parser} {goal : Goal} {least : Int} {chain : Chain} {e d : Node}

/-- The operator that the lookahead is taken for. -/
def joint (p : Parser) : Joint :=
  ⟨p.upcoming.lexeme.text, p.precedence, p.upcoming.head.token.location⟩

/-- Reads on behind the operand `e` of a chain, where `chain` has been read in front of it. -/
def chainOn (goal : Goal) (chain : Chain) (e : Node) (p : Parser) : Except Failure Node × Parser :=
  p.run ⟨goal, [], chain, .complete e, p.opened⟩

/-- Reads an operand of a chain and on behind it. -/
def operandOn (goal : Goal) (chain : Chain) (p : Parser) : Except Failure Node × Parser :=
  p.run ⟨goal, [], chain, .operand, p.opened⟩

/-- An operand of a chain is read as it is read alone. -/
theorem operandOn_of_ok (h : p.operand = (.ok d, q)) :
    p.operandOn goal chain = q.chainOn goal chain d := by
  have hw : Within goal chain (.operand p.opened) _ := .outermost .operand p.opened
  have hrun := (hw.runOn (R := p.rules) p.upcoming.last p.upcoming.tokens).ok d
    (congrArg Prod.fst h)
  obtain rfl := congrArg Prod.snd h
  rw [operandOn, run, Reader.run, hrun]
  rfl

theorem operandOn_of_error {f : Failure} (goal : Goal) (chain : Chain)
    (h : p.operand.1 = .error f) : (p.operandOn goal chain).1 = .error f := by
  have hw : Within goal chain (.operand p.opened) _ := .outermost .operand p.opened
  exact (hw.runOn (R := p.rules) p.upcoming.last p.upcoming.tokens).error f h

theorem chainOn_of_looser (hg : goal.least? = some least) (h : p.precedence < least) :
    p.chainOn goal chain e = (.ok (chain.close e),
      { p with opened := leftOpen ⟨goal, [], chain, .complete e, p.opened⟩ }) := by
  rw [chainOn, run, run_of_looser hg h]
  rfl

theorem chainOn_of_operator (hg : goal.least? = some least) (h : least ≤ p.precedence) :
    p.chainOn goal chain e = p.next.operandOn goal ((e, p.joint) :: chain) := by
  rw [chainOn, run, run_of_operator hg h]
  rfl

theorem expression_eq_operandOn (h : p.opened < p.rules.maxDepth) :
    p.expression = { p with opened := p.opened + 1 }.operandOn .expression [] := by
  rw [expression, run, run_expression h]
  rfl

end Parser

end OperatorGrammar
