import OperatorGrammar.Proofs.Depth
import OperatorGrammar.Proofs.Grammar.Maximal

/-!
How many expressions are open. A reader counts those that it enters and those that it leaves, and
however a reading ends, as many are open as were before. So a parser has none open between calls,
whatever has been called and has failed, and does what a new one does in the same place. Main
statements: `Expression.Reader.Balanced.read?`, a token keeps the count right, `Parser.call_keeps`,
what any call leaves as it is, and `Parser.callAll_asNew`.
-/

namespace OperatorGrammar

namespace Expression

/-- How many expressions have been entered at the innermost level. -/
def Progress.entered : Progress → Nat
  | .entering => 0
  | _ => 1

theorem Progress.entered_of_ne {progress : Progress} (h : progress ≠ .entering) :
    progress.entered = 1 := by
  cases progress with
  | entering => exact absurd rfl h
  | _ => rfl

/-- How many of the expressions that a reader is in were entered outside. An operand and the rest
of a chain belong to one that was. -/
def Goal.around : Goal → Nat
  | .expression => 0
  | _ => 1

namespace Reader

variable {R : Rules} {r r' : Reader} {outside : Nat} {t : Token} {ts : List Token} {e : Node}

theorem openHere_eq (r : Reader) :
    r.openHere = r.levels.length + r.progress.entered - r.goal.around := by
  unfold openHere
  cases r.progress <;> cases r.goal <;> rfl

/-- Besides those outside, as many expressions are open as the reader has entered and not left. -/
structure Balanced (outside : Nat) (r : Reader) : Prop where
  opened : r.opened + r.goal.around = outside + (r.levels.length + r.progress.entered)
  around_le : r.goal.around ≤ r.levels.length + r.progress.entered

theorem Balanced.leftOpen (h : r.Balanced outside) : r.leftOpen = outside := by
  obtain ⟨hopened, hle⟩ := h
  rw [Reader.leftOpen, openHere_eq]
  omega

/-! ## One token -/

/-- Nothing is entered or left within the innermost expression. -/
theorem Balanced.within (h : r.Balanced outside) (hp : r.progress.entered = 1)
    {progress : Progress} (hp' : progress.entered = 1) (chain : Chain) :
    { r with chain := chain, progress := progress }.Balanced outside := by
  obtain ⟨hopened, hle⟩ := h
  rw [hp] at hopened hle
  constructor
  · show r.opened + r.goal.around = outside + (r.levels.length + progress.entered)
    rw [hp', hopened]
  · show r.goal.around ≤ r.levels.length + progress.entered
    rwa [hp']

theorem Balanced.enter? (h : r.Balanced outside) (hp : r.progress = .entering)
    (hr : r.enter? R = some r') : r'.Balanced outside ∧ r'.progress.entered = 1 := by
  obtain ⟨hopened, hle⟩ := h
  simp only [hp, Progress.entered] at hopened hle
  unfold Reader.enter? at hr
  split at hr
  · obtain rfl := Option.some.inj hr
    refine ⟨⟨?_, ?_⟩, rfl⟩
    · simp only [Progress.entered]
      omega
    · exact Nat.le_succ_of_le hle
  · cases hr

/-- A level is opened before the expression in it is entered. -/
theorem Balanced.push (h : r.Balanced outside) (hp : r.progress.entered = 1)
    (enclosure : Enclosure) : (r.push enclosure).Balanced outside := by
  obtain ⟨hopened, hle⟩ := h
  rw [hp] at hopened hle
  exact ⟨hopened, hle⟩

/-- With the innermost level its expression is left. -/
theorem Balanced.leave (h : r.Balanced outside) (hp : r.progress.entered = 1) {level : Level}
    {levels : List Level} (hl : r.levels = level :: levels) (chain : Chain) :
    { r with levels := levels, chain := chain, opened := r.opened - 1 }.Balanced outside := by
  obtain ⟨hopened, hle⟩ := h
  have haround : r.goal.around ≤ 1 := by cases r.goal <;> simp [Goal.around]
  rw [hp, hl, List.length_cons] at hopened
  constructor <;> simp only [hp] <;> omega

theorem Balanced.readOperand? (h : r.Balanced outside) (hp : r.progress.entered = 1)
    (hr : r.readOperand? R t = some r') : r'.Balanced outside := by
  unfold Reader.readOperand? at hr
  split at hr
  · obtain rfl := Option.some.inj hr
    exact h.within hp rfl r.chain
  · split at hr
    · obtain rfl := Option.some.inj hr
      exact h.within hp rfl r.chain
    · cases hr
  · split at hr
    · obtain rfl := Option.some.inj hr
      exact h.push hp .group
    · cases hr
  · cases hr

theorem Balanced.readOn? (h : r.Balanced outside) (hp : r.progress.entered = 1)
    (hr : r.readOn? R e t = some r') : r'.Balanced outside := by
  unfold Reader.readOn? at hr
  split at hr
  · obtain rfl := Option.some.inj hr
    exact h.within hp rfl _
  · split at hr
    case h_1 => cases hr
    case h_2 outer enclosure levels hl =>
      have hleft := h.leave hp hl outer
      cases enclosure with
      | group =>
        dsimp only at hr
        split at hr
        · obtain rfl := Option.some.inj hr
          exact hleft.within hp rfl outer
        · cases hr
      | call f l arguments =>
        dsimp only at hr
        split at hr
        · obtain rfl := Option.some.inj hr
          exact hleft.within hp rfl outer
        · split at hr
          · obtain rfl := Option.some.inj hr
            exact hleft.push hp _
          · cases hr

/-- Each token that is taken in keeps the count. -/
theorem Balanced.read? (h : r.Balanced outside) (hr : r.read? R t = some r') :
    r'.Balanced outside := by
  unfold Reader.read? at hr
  by_cases hp : r.progress = .entering
  case pos =>
    rw [hp] at hr
    obtain ⟨q, hq, hr⟩ := Option.bind_eq_some_iff.1 hr
    obtain ⟨hbalanced, hentered⟩ := h.enter? hp hq
    exact hbalanced.readOperand? hentered hr
  case neg =>
    have hentered := Progress.entered_of_ne hp
    split at hr
    case h_1 he => exact absurd he hp
    case h_2 => exact h.readOperand? hentered hr
    case h_3 f l _ =>
      split at hr
      · obtain rfl := Option.some.inj hr
        exact h.within hentered rfl r.chain
      · -- the call becomes the innermost level, and an argument is entered in it
        obtain ⟨q, hq, hr⟩ := Option.bind_eq_some_iff.1 hr
        obtain ⟨hbalanced, hargument⟩ := (h.push hentered _).enter? rfl hq
        exact hbalanced.readOperand? hargument hr
    case h_4 x l _ =>
      split at hr
      · obtain rfl := Option.some.inj hr
        exact h.within hentered rfl r.chain
      · exact h.readOn? hentered hr
    case h_5 e _ => exact h.readOn? hentered hr

theorem Balanced.readAll? (h : r.Balanced outside) (hr : r.readAll? R ts = some r') :
    r'.Balanced outside := by
  induction ts generalizing r with
  | nil =>
    obtain rfl := Option.some.inj hr
    exact h
  | cons t ts ih =>
    rw [readAll?_cons] at hr
    obtain ⟨q, hq, hr⟩ := Option.bind_eq_some_iff.1 hr
    exact ih (h.read? hq) hr

end Reader

end Expression

namespace Parser

open Expression Reader

variable {p q : Parser} {rules : Rules}

/-! ## What can be called -/

/-- The readings that a parser offers. -/
inductive Production where
  | number | group | name | operand
  | chainRest (least : Int) (first : Node)
  | expression | prototype | definition | external | topLevelExpression

def Production.read (p : Parser) : Production → Except Failure Node × Parser
  | .number => p.number
  | .group => p.group
  | .name => p.name
  | .operand => p.operand
  | .chainRest least first => p.chainRest least first
  | .expression => p.expression
  | .prototype => (p.prototype.1.map .prototype, p.prototype.2)
  | .definition => p.definition
  | .external => p.external
  | .topLevelExpression => p.topLevelExpression

inductive Call where
  | prime
  | advance
  | precedence
  /-- Changes the table, which takes changes as long as it is not frozen. -/
  | setOperator (operator precedence : Value)
  | freezeTable
  | read (production : Production)

inductive Answer where
  | lookahead (t : Option Scanned)
  | precedence (n : Int)
  | done
  | refused (e : ConfigurationError)
  | outcome (result : Except Failure Node)

/-- What a call answers, and the parser behind it. -/
def call (p : Parser) : Call → Answer × Parser
  | .prime => (.lookahead p.prime.lookahead?, p.prime)
  | .advance => (.lookahead p.advance.lookahead?, p.advance)
  | .precedence => (.precedence p.precedence, p)
  | .setOperator operator precedence =>
    match p.setOperator operator precedence with
    | .ok q => (.done, q)
    | .error e => (.refused e, p)
  | .freezeTable => (.done, { p with rules := { p.rules with table := p.rules.table.freeze } })
  | .read production => (.outcome (production.read p).1, (production.read p).2)

/-- The parser behind calls one after another. -/
def callAll (p : Parser) (calls : List Call) : Parser := calls.foldl (fun p c => (p.call c).2) p

/-! ## What a call keeps -/

/-- A reading changes nothing but what is to come. -/
theorem run_keeps {r : Reader} (h : r.Balanced p.opened) :
    (p.run r).2 = { p with upcoming := (p.run r).2.upcoming } := by
  obtain ⟨us, r', t, -, -, hr, ho, -⟩ := runOn_ends p.rules p.upcoming.last r p.upcoming.tokens
  simp only [run, Reader.run, ho, (h.readAll? hr).leftOpen]

theorem operand_keeps (p : Parser) :
    p.operand.2 = { p with upcoming := p.operand.2.upcoming } :=
  run_keeps ⟨rfl, Nat.le_refl 1⟩

/-- The parenthesis has been opened outside, and no expression has been entered behind it. -/
theorem group_keeps (p : Parser) : p.group.2 = { p with upcoming := p.group.2.upcoming } :=
  p.next.run_keeps ⟨rfl, Nat.le_refl 1⟩

theorem chainRest_keeps (least : Int) (first : Node) (p : Parser) :
    (p.chainRest least first).2 =
      { p with upcoming := (p.chainRest least first).2.upcoming } :=
  run_keeps ⟨rfl, Nat.le_refl 1⟩

/-- A call without a name fails where it ends. -/
theorem name_snd (p : Parser) : p.name.2 = (p.next.run (.name p.upcoming.head.token.lexeme.value
    p.upcoming.head.token.location p.opened)).2 := by
  unfold name
  dsimp only
  split
  · split <;> rfl
  · rfl

theorem name_keeps (p : Parser) : p.name.2 = { p with upcoming := p.name.2.upcoming } := by
  rw [name_snd]
  exact p.next.run_keeps ⟨rfl, Nat.le_refl 1⟩

theorem number_keeps (p : Parser) : p.number.2 = { p with upcoming := p.number.2.upcoming } := by
  unfold number
  dsimp only
  split <;> rfl

theorem read_keeps (production : Production) (p : Parser) :
    (production.read p).2 = { p with upcoming := (production.read p).2.upcoming } := by
  cases production with
  | number => exact p.number_keeps
  | group => exact p.group_keeps
  | name => exact p.name_keeps
  | operand => exact p.operand_keeps
  | chainRest least first => exact p.chainRest_keeps least first
  | expression => exact p.expression_keeps
  | prototype => rfl
  | definition => exact p.form_keeps .definition
  | external => exact p.form_keeps .external
  | topLevelExpression => exact p.form_keeps .expression

/-- What calls leave as it is: how many expressions are open, and the rules but for their table. -/
structure Keeps (p q : Parser) : Prop where
  opened : q.opened = p.opened
  maxDepth : q.rules.maxDepth = p.rules.maxDepth
  strictNumbers : q.rules.strictNumbers = p.rules.strictNumbers

theorem Keeps.of_eq {u : Upcoming} (h : q = { p with upcoming := u }) : p.Keeps q := by
  rw [h]
  exact ⟨rfl, rfl, rfl⟩

theorem Keeps.trans {q' : Parser} (h : p.Keeps q) (h' : q.Keeps q') : p.Keeps q' :=
  ⟨h'.opened.trans h.opened, h'.maxDepth.trans h.maxDepth, h'.strictNumbers.trans h.strictNumbers⟩

/-- Whatever is called, and however it ends, as many expressions are open as before. -/
theorem call_keeps (p : Parser) (c : Call) : p.Keeps (p.call c).2 := by
  cases c with
  | prime => exact ⟨rfl, rfl, rfl⟩
  | advance =>
    show p.Keeps p.advance
    unfold advance
    split <;> exact ⟨rfl, rfl, rfl⟩
  | precedence => exact ⟨rfl, rfl, rfl⟩
  | setOperator operator precedence =>
    unfold call setOperator
    dsimp only
    cases p.rules.table.set operator precedence <;> exact ⟨rfl, rfl, rfl⟩
  | freezeTable => exact ⟨rfl, rfl, rfl⟩
  | read production => exact .of_eq (read_keeps production p)

theorem callAll_keeps (p : Parser) (calls : List Call) : p.Keeps (p.callAll calls) := by
  induction calls generalizing p with
  | nil => exact ⟨rfl, rfl, rfl⟩
  | cons c calls ih => exact (p.call_keeps c).trans (ih (p.call c).2)

/-! ## What has been called makes no difference -/

/-- A new parser, of whatever source, that is put in the place of another, under its rules. -/
def renewed (file : String) (source : Source) (p : Parser) : Parser :=
  { start p.rules file source with upcoming := p.upcoming, primed := p.primed }

theorem renewed_eq (ho : p.opened = 0) (file : String) (source : Source) :
    p.renewed file source = p := by
  obtain ⟨R, u, primed, opened⟩ := p
  obtain rfl : opened = 0 := ho
  rfl

/-- A parser that has been made under some rules and is as good as new. -/
structure IsAsNew (rules : Rules) (p : Parser) : Prop where
  opened : p.opened = 0
  maxDepth : p.rules.maxDepth = rules.maxDepth
  strictNumbers : p.rules.strictNumbers = rules.strictNumbers
  /-- A call gives the same as with a new parser, and leaves the same. -/
  call : ∀ c file source, p.call c = (p.renewed file source).call c
  /-- An expression may use the whole limit on nesting. -/
  expression : ∀ us v, p.upcoming.Moves us v →
    ((∃ n, p.expression = (.ok n, { p with upcoming := v })) ↔
      IsExpressionBefore p.rules rules.maxDepth (us.map (·.token)) v.lexeme)
  /-- A form is too deep only where so many of its own expressions are open as the limit says. -/
  form : ∀ kind f n, (p.form kind).1 = .error f → f.fault = .nestingTooDeep n →
    n = rules.maxDepth ∧ f.token = (p.form kind).2.upcoming.head ∧
      ∃ b us, p.body? kind = some b ∧ b.upcoming.Moves us (p.form kind).2.upcoming ∧
        FirstTooDeep rules.maxDepth (us.map (·.token.lexeme)) f.token.token.lexeme

theorem isAsNew_of_keeps {file : String} {source : Source}
    (h : (start rules file source).prime.Keeps p) : p.IsAsNew rules := by
  have ho : p.opened = 0 := h.opened
  have hlimit : p.rules.maxDepth = rules.maxDepth := h.maxDepth
  constructor
  case opened => exact ho
  case maxDepth => exact hlimit
  case strictNumbers => exact h.strictNumbers
  case call =>
    intro c file source
    rw [renewed_eq ho]
  case expression =>
    intro us v hm
    have hbudget : p.rules.maxDepth - p.opened = rules.maxDepth := by rw [ho, hlimit, Nat.sub_zero]
    rw [← hbudget]
    exact expression_ok_iff hm
  case form =>
    rw [← hlimit]
    exact fun kind => (form_cutsOnly ho (Nat.le_refl _) kind).cut

/-- No call leaves an expression open or takes one away, whatever is called and however it ends. So
between calls a parser is as good as new. -/
theorem callAll_asNew : (∀ (p : Parser) (c : Call), (p.call c).2.opened = p.opened) ∧
    ∀ (rules : Rules) (file : String) (source : Source) (calls : List Call),
      ((start rules file source).prime.callAll calls).IsAsNew rules :=
  ⟨fun p c => (p.call_keeps c).opened, fun _ _ _ calls => isAsNew_of_keeps (callAll_keeps _ calls)⟩

/-- Behind an expression that has failed since two are open in it, the next may open two again. -/
example :
    let p := (start ⟨.standard, 2, true⟩ "p" (.ofString "((1)) (2)")).prime
    p.expression.1.isOk = false ∧
      (p.callAll [.read .expression, .advance, .advance, .advance]).expression.1.isOk = true := by
  decide +kernel

end Parser

end OperatorGrammar
