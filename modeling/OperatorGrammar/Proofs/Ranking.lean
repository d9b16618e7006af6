import Mathlib.Data.List.Forall2
import OperatorGrammar.Proofs.Turn.Under

/-!
What matters of precedences. A reader compares precedences with each other and with zero and does
nothing else with them, so it reads the same from two tables in which the same operators count and
stand in the same order. Main statement: `Session.ofOptions_results_of_sameOrder`.
-/

namespace OperatorGrammar

/-! ## Tables -/

namespace PrecedenceTable

variable {t t' : PrecedenceTable} {n n' m m' : Int} {c : Char}

/-- The same operators count in two tables, and of each two of them the same is below the other. -/
structure SameOrder (t t' : PrecedenceTable) : Prop where
  counts : ∀ c, 0 < t.precedence c ↔ 0 < t'.precedence c
  below : ∀ c d, 0 < t.precedence c → 0 < t.precedence d →
    (t.precedence c < t.precedence d ↔ t'.precedence c < t'.precedence d)

/-- Precedences that one operator has in two tables. It counts in the first. -/
def Ranks (t t' : PrecedenceTable) (n n' : Int) : Prop :=
  ∃ c, 0 < t.precedence c ∧ t.precedence c = n ∧ t'.precedence c = n'

theorem SameOrder.le_iff (h : t.SameOrder t') (hn : t.Ranks t' n n') (hm : t.Ranks t' m m') :
    n ≤ m ↔ n' ≤ m' := by
  obtain ⟨c, hc, rfl, rfl⟩ := hn
  obtain ⟨d, hd, rfl, rfl⟩ := hm
  rw [← Int.not_lt, ← Int.not_lt, h.below d c hd hc]

theorem SameOrder.freeze (h : t.SameOrder t') : t.freeze.SameOrder t'.freeze :=
  ⟨h.counts, h.below⟩

/-- The operators that count. -/
def operators (t : PrecedenceTable) : List Char := (t.entries.map Prod.fst).filter t.isOperator

theorem mem_operators : c ∈ t.operators ↔ 0 < t.precedence c := by
  rw [operators, List.mem_filter, isOperator, decide_eq_true_eq]
  refine ⟨And.right, ?_⟩
  intro h
  refine ⟨?_, h⟩
  -- what counts has an entry
  unfold precedence get? at h
  cases hl : t.entries.lookup c with
  | none =>
    rw [hl] at h
    exact absurd h (by decide)
  | some n =>
    obtain ⟨before, after, hs, -⟩ := List.lookup_eq_some_iff.1 hl
    rw [hs]
    simp

/-- Looks for a difference among the operators that count. -/
def hasSameOrder (t t' : PrecedenceTable) : Bool :=
  t.operators.all t'.isOperator && t'.operators.all t.isOperator &&
    t.operators.all fun c => t.operators.all fun d =>
      decide (t.precedence c < t.precedence d) == decide (t'.precedence c < t'.precedence d)

theorem hasSameOrder_iff : t.hasSameOrder t' = true ↔ t.SameOrder t' := by
  simp only [hasSameOrder, Bool.and_eq_true, List.all_eq_true, mem_operators, isOperator,
    decide_eq_true_eq, beq_iff_eq, decide_eq_decide]
  constructor
  · rintro ⟨⟨hcounts, hcounts'⟩, hbelow⟩
    exact ⟨fun c => ⟨hcounts c, hcounts' c⟩, fun c d hc hd => hbelow c hc d hd⟩
  · rintro ⟨hcounts, hbelow⟩
    exact ⟨⟨fun c => (hcounts c).1, fun c => (hcounts c).2⟩, fun c hc d hd => hbelow c d hc hd⟩

instance (t t' : PrecedenceTable) : Decidable (t.SameOrder t') :=
  decidable_of_iff _ hasSameOrder_iff

end PrecedenceTable

/-- The same rules with another table. -/
def Rules.withTable (t : PrecedenceTable) (R : Rules) : Rules := { R with table := t }

/-- A lexeme counts as an operator in both tables or in none. -/
theorem Rules.precedence_withTable_pos_iff {R : Rules} {t : PrecedenceTable}
    (h : R.table.SameOrder t) (l : Lexeme) :
    0 < (R.withTable t).precedence l ↔ 0 < R.precedence l := by
  cases l with
  | char c => exact (h.counts c).symm
  | _ => exact Iff.rfl

namespace Expression

/-! ## Chains -/

variable {t t' : PrecedenceTable}

/-- The same operator at the same place, with its precedences in two tables. -/
structure Joint.SameRank (t t' : PrecedenceTable) (j j' : Joint) : Prop where
  operator : j'.operator = j.operator
  location : j'.location = j.location
  ranks : t.Ranks t' j.precedence j'.precedence

namespace Chain

variable {c c' : Chain} {j j' : Joint} {rest rest' : List (Joint × Node)}

/-- The same operands, with the same operators behind them. -/
def SameRanks (t t' : PrecedenceTable) (c c' : Chain) : Prop :=
  List.Forall₂ (fun d d' => d'.1 = d.1 ∧ d.2.SameRank t t' d'.2) c c'

/-- The same operands, with the same operators in front of them. -/
def SameRest (t t' : PrecedenceTable) (rest rest' : List (Joint × Node)) : Prop :=
  List.Forall₂ (fun d d' => d.1.SameRank t t' d'.1 ∧ d'.2 = d.2) rest rest'

theorem join_of_sameRank (h : j.SameRank t t' j') (left right : Node) :
    join left j' right = join left j right := by
  rw [join, join, h.operator, h.location]

theorem joinAll_of_sameRanks (h : c.SameRanks t t' c') (e : Node) :
    joinAll e c' = joinAll e c := by
  induction h generalizing e with
  | nil => rfl
  | @cons d d' c c' hd _ ih =>
    obtain ⟨left, j⟩ := d
    obtain ⟨_, j'⟩ := d'
    obtain ⟨rfl, hj⟩ := hd
    rw [joinAll, joinAll, join_of_sameRank hj, ih]

theorem joinTighter_of_sameRanks {n n' : Int} (ho : t.SameOrder t') (hn : t.Ranks t' n n')
    (h : c.SameRanks t t' c') (e : Node) :
    (joinTighter n' e c').1 = (joinTighter n e c).1 ∧
      (joinTighter n e c).2.SameRanks t t' (joinTighter n' e c').2 := by
  induction h generalizing e with
  | nil => exact ⟨rfl, .nil⟩
  | @cons d d' c c' hd hc ih =>
    obtain ⟨left, j⟩ := d
    obtain ⟨_, j'⟩ := d'
    obtain ⟨rfl, hj⟩ := hd
    -- the operator waits under both tables, or is joined under both
    have hle := ho.le_iff hn hj.ranks
    rw [joinTighter, joinTighter]
    by_cases hb : n ≤ j.precedence
    · rw [if_pos hb, if_pos (hle.1 hb), join_of_sameRank hj]
      exact ih _
    · rw [if_neg hb, if_neg (mt hle.2 hb)]
      exact ⟨rfl, .cons ⟨rfl, hj⟩ hc⟩

theorem climb_of_sameRanks (ho : t.SameOrder t') (h : c.SameRanks t t' c')
    (hr : SameRest t t' rest rest') (e : Node) : climb c' e rest' = climb c e rest := by
  induction hr generalizing c c' e with
  | nil => exact joinAll_of_sameRanks h e
  | @cons d d' rest rest' hd _ ih =>
    obtain ⟨j, next⟩ := d
    obtain ⟨j', next'⟩ := d'
    obtain ⟨hj, hnext⟩ := hd
    obtain rfl : next' = next := hnext
    obtain ⟨hleft, hpending⟩ := joinTighter_of_sameRanks ho hj.ranks h e
    have hwaiting : SameRanks t t' (((joinTighter j.precedence e c).1, j) ::
          (joinTighter j.precedence e c).2)
        (((joinTighter j.precedence e c).1, j') :: (joinTighter j'.precedence e c').2) :=
      .cons ⟨rfl, hj⟩ hpending
    rw [climb, climb]
    dsimp only
    rw [hleft]
    exact ih hwaiting next'

theorem inOrder_of_sameRanks (h : c.SameRanks t t' c') (e : Node) :
    (c'.inOrder e).1 = (c.inOrder e).1 ∧ SameRest t t' (c.inOrder e).2 (c'.inOrder e).2 := by
  -- the fold has to start with any rests, since each operand goes in front of what is there
  suffices hfold : ∀ (f : Node) (rest rest' : List (Joint × Node)), SameRest t t' rest rest' →
      (c'.foldl front (f, rest')).1 = (c.foldl front (f, rest)).1 ∧
        SameRest t t' (c.foldl front (f, rest)).2 (c'.foldl front (f, rest')).2 by
    exact hfold e [] [] .nil
  induction h with
  | nil => exact fun f rest rest' hr => ⟨rfl, hr⟩
  | @cons d d' c c' hd _ ih =>
    intro f rest rest' hr
    obtain ⟨left, j⟩ := d
    obtain ⟨_, j'⟩ := d'
    obtain ⟨rfl, hj⟩ := hd
    exact ih _ _ _ (.cons ⟨hj, rfl⟩ hr)

/-- The same chain makes the same tree. -/
theorem close_of_sameRanks (ho : t.SameOrder t') (h : c.SameRanks t t' c') (e : Node) :
    c'.close e = c.close e := by
  obtain ⟨hfirst, hrest⟩ := inOrder_of_sameRanks h e
  rw [close, close]
  dsimp only
  rw [hfirst]
  exact climb_of_sameRanks ho .nil hrest _

end Chain

/-! ## Readers -/

structure Level.SameRanks (t t' : PrecedenceTable) (l l' : Level) : Prop where
  chain : l.chain.SameRanks t t' l'.chain
  enclosure : l'.enclosure = l.enclosure

/-- Readers of an expression that have got equally far with two tables. -/
structure Reader.SameRanks (t t' : PrecedenceTable) (r r' : Reader) : Prop where
  goal : r.goal = .expression
  goal_eq : r'.goal = .expression
  levels : List.Forall₂ (Level.SameRanks t t') r.levels r'.levels
  chain : r.chain.SameRanks t t' r'.chain
  progress : r'.progress = r.progress
  opened : r'.opened = r.opened

namespace Reader

variable {R : Rules} {r r' : Reader}

theorem sameRanks_expression (t t' : PrecedenceTable) (opened : Nat) :
    (expression opened).SameRanks t t' (expression opened) :=
  ⟨rfl, rfl, .nil, .nil, rfl, rfl⟩

theorem SameRanks.takesOperator (ho : R.table.SameOrder t) (h : r.SameRanks R.table t r')
    (l : Lexeme) : r'.takesOperator (R.withTable t) l = r.takesOperator R l := by
  rw [takesOperator_of_zero (leastPrecedence_of_expression h.goal),
    takesOperator_of_zero (leastPrecedence_of_expression h.goal_eq)]
  exact decide_eq_decide.2 (Rules.precedence_withTable_pos_iff ho l)

theorem SameRanks.push (h : r.SameRanks R.table t r') (enclosure : Enclosure) :
    (r.push enclosure).SameRanks R.table t (r'.push enclosure) :=
  ⟨h.goal, h.goal_eq, .cons ⟨h.chain, rfl⟩ h.levels, .nil, rfl, h.opened⟩

theorem SameRanks.withProgress (h : r.SameRanks R.table t r') (progress : Progress) :
    { r with progress := progress }.SameRanks R.table t { r' with progress := progress } :=
  ⟨h.goal, h.goal_eq, h.levels, h.chain, rfl, h.opened⟩

theorem SameRanks.enter? (h : r.SameRanks R.table t r') :
    Option.Rel (SameRanks R.table t) (r.enter? R) (r'.enter? (R.withTable t)) := by
  unfold Reader.enter?
  rw [h.opened]
  by_cases ho : r.opened < R.maxDepth
  · rw [if_pos ho, if_pos (by exact ho)]
    exact .some ⟨h.goal, h.goal_eq, h.levels, h.chain, rfl, rfl⟩
  · rw [if_neg ho, if_neg (by exact ho)]
    exact .none

theorem SameRanks.readOperand? (h : r.SameRanks R.table t r') (a : Token) :
    Option.Rel (SameRanks R.table t) (r.readOperand? R a) (r'.readOperand? (R.withTable t) a) := by
  obtain ⟨lexeme, l⟩ := a
  cases lexeme with
  | identifier x => exact .some (h.withProgress _)
  | number text =>
    simp only [Reader.readOperand?]
    by_cases ha : R.acceptsNumber text = true
    · rw [if_pos ha, if_pos (by exact ha)]
      exact .some (h.withProgress _)
    · rw [if_neg ha, if_neg (by exact ha)]
      exact .none
  | char c =>
    simp only [Reader.readOperand?]
    by_cases hc : c = '('
    · rw [if_pos hc, if_pos hc]
      exact .some (h.push .group)
    · rw [if_neg hc, if_neg hc]
      exact .none
  | _ => exact .none

theorem SameRanks.enterOperand? (h : r.SameRanks R.table t r') (a : Token) :
    Option.Rel (SameRanks R.table t) ((r.enter? R).bind (Reader.readOperand? R · a))
      ((r'.enter? (R.withTable t)).bind (Reader.readOperand? (R.withTable t) · a)) := by
  have he := h.enter?
  revert he
  generalize r.enter? R = q, r'.enter? (R.withTable t) = q'
  intro he
  cases he with
  | none => exact .none
  | some hq => exact hq.readOperand? a

/-- A token behind a complete operand goes on alike. -/
theorem SameRanks.readOn? (ho : R.table.SameOrder t) (h : r.SameRanks R.table t r') (e : Node)
    (a : Token) :
    Option.Rel (SameRanks R.table t) (r.readOn? R e a) (r'.readOn? (R.withTable t) e a) := by
  by_cases hop : 0 < R.precedence a.lexeme
  · obtain ⟨lexeme, l⟩ := a
    obtain ⟨c, rfl⟩ := R.exists_char_of_precedence_pos hop
    rw [readOn?_operator (leastPrecedence_of_expression h.goal) hop,
      readOn?_operator (leastPrecedence_of_expression h.goal_eq) ((ho.counts c).1 hop)]
    have hchain : Chain.SameRanks R.table t ((e, ⟨c.toString, R.table.precedence c, l⟩) :: r.chain)
        ((e, ⟨c.toString, t.precedence c, l⟩) :: r'.chain) :=
      .cons ⟨rfl, rfl, rfl, c, hop, rfl, rfl⟩ h.chain
    exact .some ⟨h.goal, h.goal_eq, h.levels, hchain, rfl, h.opened⟩
  · have htakes := takesOperator_of_not_pos (leastPrecedence_of_expression h.goal) hop
    have hclose := Chain.close_of_sameRanks ho h.chain e
    unfold Reader.readOn?
    rw [h.takesOperator ho, htakes, if_neg Bool.false_ne_true, if_neg Bool.false_ne_true, hclose]
    obtain ⟨goal, levels, chain, progress, opened⟩ := r
    obtain ⟨goal', levels', chain', progress', opened'⟩ := r'
    obtain ⟨hgoal, hgoal', hlevels, hchain, hprogress, hopened⟩ := h
    dsimp only at hgoal hgoal' hlevels hchain hprogress hopened
    subst hgoal hgoal' hprogress hopened
    cases hlevels with
    | nil => exact .none
    | @cons level level' levels levels' hlevel hlevels =>
      obtain ⟨outer, enclosure⟩ := level
      obtain ⟨outer', enclosure'⟩ := level'
      obtain ⟨houter, henclosure⟩ := hlevel
      dsimp only at houter henclosure
      subst henclosure
      -- what is left when the level is closed, whatever the operand is
      have hleft : ∀ progress, SameRanks R.table t
          ⟨.expression, levels, outer, progress, opened' - 1⟩
          ⟨.expression, levels', outer', progress, opened' - 1⟩ :=
        fun progress => ⟨rfl, rfl, hlevels, houter, rfl, rfl⟩
      cases enclosure' with
      | group =>
        dsimp only
        split
        · exact .some (hleft _)
        · exact .none
      | call f l arguments =>
        dsimp only
        split
        · exact .some (hleft _)
        · split
          · exact .some ((hleft progress').push _)
          · exact .none

theorem SameRanks.read? (ho : R.table.SameOrder t) (h : r.SameRanks R.table t r') (a : Token) :
    Option.Rel (SameRanks R.table t) (r.read? R a) (r'.read? (R.withTable t) a) := by
  unfold Reader.read?
  rw [h.progress]
  cases r.progress with
  | entering => exact h.enterOperand? a
  | operand => exact h.readOperand? a
  | arguments f l =>
    dsimp only
    split
    · exact .some (h.withProgress _)
    · exact (h.push _).enterOperand? a
  | named x l =>
    dsimp only
    split
    · exact .some (h.withProgress _)
    · exact h.readOn? ho _ a
  | complete e => exact h.readOn? ho e a

theorem SameRanks.endOn (ho : R.table.SameOrder t) (h : r.SameRanks R.table t r') (e : Node)
    (l : Lexeme) : r'.endOn (R.withTable t) e l = r.endOn R e l := by
  unfold Reader.endOn
  rw [h.takesOperator ho, Chain.close_of_sameRanks ho h.chain]
  obtain ⟨-, -, hlevels, -, -, -⟩ := h
  revert hlevels
  generalize r.levels = levels, r'.levels = levels'
  intro hlevels
  cases hlevels with
  | nil => rfl
  | @cons level level' levels levels' hlevel _ =>
    obtain ⟨outer, enclosure⟩ := level
    obtain ⟨outer', enclosure'⟩ := level'
    obtain rfl : enclosure' = enclosure := hlevel.enclosure
    cases enclosure' <;> rfl

theorem SameRanks.endBefore (ho : R.table.SameOrder t) (h : r.SameRanks R.table t r')
    (l : Lexeme) : r'.endBefore (R.withTable t) l = r.endBefore R l := by
  have hentry : r'.entryFault (R.withTable t) l = r.entryFault R l := by
    unfold entryFault
    rw [h.opened]
    rfl
  unfold Reader.endBefore
  rw [h.progress, hentry]
  cases r.progress with
  | named x m => exact h.endOn ho _ l
  | complete e => exact h.endOn ho e l
  | _ => rfl

theorem SameRanks.leftOpen (h : r.SameRanks R.table t r') : r'.leftOpen = r.leftOpen := by
  unfold Reader.leftOpen openHere
  rw [h.opened, h.progress, h.goal, h.goal_eq, h.levels.length_eq]

/-- Readers that have got equally far come to the same end. -/
theorem SameRanks.runOn (ho : R.table.SameOrder t) (h : r.SameRanks R.table t r') (last : Scanned)
    (ts : List Scanned) : r'.runOn (R.withTable t) last ts = r.runOn R last ts := by
  induction ts generalizing r r' with
  | nil => rw [Reader.runOn, Reader.runOn, h.endBefore ho, h.leftOpen]
  | cons a ts ih =>
    have hread := h.read? ho a.token
    rw [Reader.runOn, Reader.runOn]
    revert hread
    generalize r.read? R a.token = q, r'.read? (R.withTable t) a.token = q'
    intro hread
    cases hread with
    | none =>
      dsimp only
      rw [h.endBefore ho, h.leftOpen]
    | some hq => exact ih hq

end Reader

end Expression

/-! ## Runs -/

theorem Parser.expression_sameOrder {p : Parser} {t : PrecedenceTable}
    (h : p.rules.table.SameOrder t) :
    p.SameUnder (p.rules.withTable t) Parser.expression :=
  expression_under ((Expression.Reader.sameRanks_expression p.rules.table t p.opened).runOn h
    p.upcoming.last p.upcoming.tokens)

namespace Session

variable {R : Rules} {t : PrecedenceTable}

theorem start_drain_sameOrder (h : R.table.SameOrder t) (maxErrors : Int) (file : String)
    (source : Source) :
    (start (R.withTable t) maxErrors file source).drain =
      ((start R maxErrors file source).drain.1,
        (start R maxErrors file source).drain.2.under (R.withTable t)) := by
  refine drain_under (s := start R maxErrors file source) (R.withTable t) (fun _ => True) ?_ rfl
    rfl (fun _ _ => trivial)
  intro p kind hR _ _
  apply Parser.form_under
  intro b hb
  obtain rfl : b.rules = R := (congrArg Parser.rules (Parser.body?_keeps hb)).trans hR
  exact Parser.expression_sameOrder h

theorem start_results_sameOrder (h : R.table.SameOrder t) (maxErrors : Int) (file : String)
    (source : Source) :
    (start (R.withTable t) maxErrors file source).results =
      (start R maxErrors file source).results := by
  rw [results, start_drain_sameOrder h]
  rfl

/-- Under options that differ in the table alone, and in the table not in which operators count and
which of them is below which, every input has the same results. -/
theorem ofOptions_results_of_sameOrder {o : Options} {t : PrecedenceTable}
    (h : o.table.SameOrder t) (file : String) (source : Source) :
    (ofOptions { o with table := t } file source).map results =
      (ofOptions o file source).map results := by
  unfold ofOptions Options.rules
  dsimp only
  cases Options.depth? o.maxDepth with
  | error e => rfl
  | ok depth =>
    exact congrArg Except.ok (start_results_sameOrder
      (R := ⟨o.table.freeze, depth, o.strictNumbers⟩) h.freeze o.maxErrors file source)

/-- A table with other precedences, in another order of entries, and an operator that does not
count. -/
theorem results_of_other_precedences :
    PrecedenceTable.standard.SameOrder
        ⟨[('*', 7), ('/', 0), ('<', 1), ('-', 6), ('+', 3)], false, by decide, by decide⟩ ∧
      (ofOptions { Options.standard with
          table := ⟨[('*', 7), ('/', 0), ('<', 1), ('-', 6), ('+', 3)], false, by decide,
            by decide⟩ } "p" (.ofString "a < b + c * d - e / f")).map results =
        (ofOptions .standard "p" (.ofString "a < b + c * d - e / f")).map results := by
  have h : PrecedenceTable.standard.SameOrder
      ⟨[('*', 7), ('/', 0), ('<', 1), ('-', 6), ('+', 3)], false, by decide, by decide⟩ := by
    decide
  exact ⟨h, ofOptions_results_of_sameOrder (o := .standard) h _ _⟩

end Session

end OperatorGrammar
