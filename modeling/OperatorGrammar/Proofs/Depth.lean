import OperatorGrammar.Proofs.Locality
import OperatorGrammar.Proofs.Turn.Under

/-!
What the limit on nesting does. A reading fails at the first token with which an expression is
entered while as many as the limit allows are open, and is otherwise the same under every larger
limit. How many are open shows in the parentheses that have been taken. Main statements:
`Reader.firstTooDeep`, `Parser.form_cutsOnly` and `Session.limit_cuts_only`.
-/

namespace OperatorGrammar

/-! ## Nesting in lexemes -/

/-- How many parentheses are open behind lexemes. When an expression is entered there, this is the
number of those that are open: the outermost, and one for each parenthesis around the innermost. -/
def openParentheses (taken : List Lexeme) : Nat :=
  taken.count (.char '(') - taken.count (.char ')')

/-- Whether an expression is entered with a lexeme behind others: at the start, behind a comma, and
behind an opening parenthesis, unless it is that of a call and is closed at once. -/
def Enters (taken : List Lexeme) (next : Lexeme) : Prop :=
  taken = [] ∨ taken.getLast? = some (.char ',') ∨
    taken.getLast? = some (.char '(') ∧
      (next = .char ')' → ∀ x, taken.dropLast.getLast? ≠ some (.identifier x))

/-- Wherever an expression is entered, fewer than `limit` are open. -/
def NestsWithin (limit : Nat) (taken : List Lexeme) : Prop :=
  ∀ before l behind, taken = before ++ l :: behind → Enters before l →
    openParentheses before < limit

/-- With the next lexeme an expression is entered though `limit` are open, for the first time. -/
structure FirstTooDeep (limit : Nat) (taken : List Lexeme) (next : Lexeme) : Prop where
  enters : Enters taken next
  full : openParentheses taken = limit
  first : NestsWithin limit taken

theorem enters_concat {taken : List Lexeme} {l next : Lexeme} :
    Enters (taken ++ [l]) next ↔ l = .char ',' ∨
      l = .char '(' ∧ (next = .char ')' → ∀ x, taken.getLast? ≠ some (.identifier x)) := by
  simp [Enters]

/-- The same rules with another limit on nesting. -/
def Rules.withMaxDepth (limit : Nat) (R : Rules) : Rules := { R with maxDepth := limit }

namespace Expression

/-- The parentheses that are open behind the levels. -/
def Progress.pending : Progress → Nat
  | .arguments .. => 1
  | _ => 0

namespace Reader

variable {R : Rules} {r r' q : Reader} {t : Token} {l : Lexeme} {limit : Nat} {ts us : List Token}
  {taken : List Lexeme}

/-! ## Entering an expression -/

/-- Whether the reader enters an expression with a lexeme. -/
def EntersWith (r : Reader) (l : Lexeme) : Prop :=
  r.progress = .entering ∨ (∃ f m, r.progress = .arguments f m) ∧ l ≠ .char ')'

/-- The reader behind the start of the expression that it enters. -/
def entered (r : Reader) : Reader :=
  match r.progress with
  | .arguments f l =>
    { r.push (.call f l []) with opened := r.opened + 1, progress := .operand }
  | _ => { r with opened := r.opened + 1, progress := .operand }

theorem length_levels_entered (r : Reader) :
    r.entered.levels.length = r.levels.length + r.progress.pending := by
  unfold entered
  cases r.progress <;> rfl

theorem opened_entered (r : Reader) : r.entered.opened = r.opened + 1 := by
  unfold entered
  cases r.progress <;> rfl

theorem read?_of_entersWith (h : r.EntersWith t.lexeme) :
    r.read? R t = if r.opened < R.maxDepth then r.entered.readOperand? R t else none := by
  rcases h with hp | ⟨⟨f, m, hp⟩, hl⟩
  · simp only [read?, entered, hp]
    by_cases ho : r.opened < R.maxDepth
    · rw [enter?, if_pos ho, if_pos ho]
      rfl
    · rw [enter?, if_neg ho, if_neg ho]
      rfl
  · have hc : ¬ t.isChar ')' = true := by simpa [Token.isChar] using hl
    simp only [read?, entered, hp]
    rw [if_neg hc]
    by_cases ho : r.opened < R.maxDepth
    · rw [enter?, if_pos ho, if_pos (show (r.push _).opened < R.maxDepth from ho)]
      rfl
    · rw [enter?, if_neg ho, if_neg (show ¬ (r.push _).opened < R.maxDepth from ho)]
      rfl

/-- The limit matters only where an expression is entered. -/
theorem read?_of_not_entersWith (h : ¬ r.EntersWith t.lexeme) :
    r.read? (R.withMaxDepth limit) t = r.read? R t := by
  unfold read?
  cases hp : r.progress with
  | entering => exact absurd (.inl hp) h
  | arguments f l =>
    have hl : t.lexeme = .char ')' := by
      by_contra hl
      exact h (.inr ⟨⟨f, l, hp⟩, hl⟩)
    have hc : t.isChar ')' = true := by simpa [Token.isChar] using hl
    dsimp only
    rw [if_pos hc, if_pos hc]
  | _ => rfl

/-- The reader enters an expression with a lexeme, though too many are open. -/
def AtLimit (R : Rules) (r : Reader) (l : Lexeme) : Prop := r.EntersWith l ∧ R.maxDepth ≤ r.opened

theorem read?_of_atLimit (h : r.AtLimit R t.lexeme) : r.read? R t = none := by
  rw [read?_of_entersWith h.1, if_neg (Nat.not_lt.2 h.2)]

theorem read?_of_not_atLimit (hl : R.maxDepth ≤ limit) (h : ¬ r.AtLimit R t.lexeme) :
    r.read? (R.withMaxDepth limit) t = r.read? R t := by
  by_cases he : r.EntersWith t.lexeme
  · have ho : r.opened < R.maxDepth := Nat.not_le.1 fun ho => h ⟨he, ho⟩
    have ho' : r.opened < (R.withMaxDepth limit).maxDepth := Nat.lt_of_lt_of_le ho hl
    rw [read?_of_entersWith he, read?_of_entersWith he, if_pos ho, if_pos ho']
    rfl
  · exact read?_of_not_entersWith he

/-- What is taken in under a limit is taken in under every larger one. -/
theorem readAll?_withMaxDepth (hl : R.maxDepth ≤ limit) (h : r.readAll? R ts = some r') :
    r.readAll? (R.withMaxDepth limit) ts = some r' := by
  induction ts generalizing r with
  | nil => exact h
  | cons t ts ih =>
    rw [readAll?_cons] at h ⊢
    obtain ⟨q, hq, h⟩ := Option.bind_eq_some_iff.1 h
    have hn : ¬ r.AtLimit R t.lexeme := by
      intro ha
      rw [read?_of_atLimit ha] at hq
      cases hq
    rw [read?_of_not_atLimit hl hn, hq]
    exact ih h

theorem endBefore_of_entersWith (h : r.EntersWith l) :
    r.endBefore R l = .error (r.entryFault R l) := by
  rcases h with hp | ⟨⟨f, m, hp⟩, -⟩
  all_goals rw [endBefore, hp]

theorem endBefore_of_atLimit (h : r.AtLimit R l) :
    r.endBefore R l = .error (.nestingTooDeep R.maxDepth) := by
  rw [endBefore_of_entersWith h.1, entryFault, if_neg (Nat.not_lt.2 h.2)]

theorem operandFault_ne (l : Lexeme) (n : Nat) : operandFault l ≠ .nestingTooDeep n := by
  unfold operandFault
  split <;> exact nofun

theorem endOn_ne (R : Rules) (r : Reader) (e : Node) (l : Lexeme) (n : Nat) :
    r.endOn R e l ≠ .error (.nestingTooDeep n) := by
  unfold endOn
  split
  · split <;> exact nofun
  · exact nofun
  · exact nofun

/-- An expression that may be entered is entered under every larger limit, too. -/
theorem entryFault_of_lt (hl : R.maxDepth ≤ limit) (ho : r.opened < R.maxDepth) (l : Lexeme) :
    r.entryFault R l = operandFault l ∧
      r.entryFault (R.withMaxDepth limit) l = operandFault l := by
  have ho' : r.opened < (R.withMaxDepth limit).maxDepth := Nat.lt_of_lt_of_le ho hl
  exact ⟨if_pos ho, if_pos ho'⟩

/-- In front of a token that is refused, a reading that is not at the limit ends as it does under
every larger limit, and not because of it. -/
theorem endBefore_of_not_atLimit (hl : R.maxDepth ≤ limit) (h : ¬ r.AtLimit R l)
    (hc : l = .char ')' → ∀ f l', r.progress ≠ .arguments f l') :
    r.endBefore (R.withMaxDepth limit) l = r.endBefore R l ∧
      ∀ n, r.endBefore R l ≠ .error (.nestingTooDeep n) := by
  have entry (he : r.EntersWith l) : r.entryFault R l = operandFault l ∧
      r.entryFault (R.withMaxDepth limit) l = operandFault l :=
    entryFault_of_lt hl (Nat.not_le.1 fun ho => h ⟨he, ho⟩) l
  unfold endBefore
  cases hp : r.progress with
  | entering =>
    obtain ⟨hf, hf'⟩ := entry (.inl hp)
    dsimp only
    rw [hf, hf']
    exact ⟨rfl, fun n he => operandFault_ne l n (Except.error.inj he)⟩
  | arguments f l' =>
    obtain ⟨hf, hf'⟩ := entry (.inr ⟨⟨f, l', hp⟩, fun hl => hc hl f l' hp⟩)
    dsimp only
    rw [hf, hf']
    exact ⟨rfl, fun n he => operandFault_ne l n (Except.error.inj he)⟩
  | operand => exact ⟨rfl, fun n he => operandFault_ne l n (Except.error.inj he)⟩
  | named x l' => exact ⟨rfl, endOn_ne R r _ l⟩
  | complete e => exact ⟨rfl, endOn_ne R r e l⟩

/-! ## What the tokens say about the reader -/

/-- A reader and the lexemes that it has taken in agree on how many parentheses are open, whether
an expression is entered next, and whether a name has just been read. -/
structure Tracks (R : Rules) (r : Reader) (taken : List Lexeme) : Prop where
  balance : taken.count (.char '(') =
    taken.count (.char ')') + r.levels.length + r.progress.pending
  enters : ∀ next, Enters taken next ↔ r.EntersWith next
  named : (∃ x, taken.getLast? = some (.identifier x)) ↔ ∃ x l, r.progress = .named x l
  opened_le : r.opened ≤ R.maxDepth

theorem tracks_expression (R : Rules) : Tracks R (expression 0) [] where
  balance := rfl
  enters next := ⟨fun _ => .inl rfl, fun _ => .inl rfl⟩
  named := by simp [expression]
  opened_le := Nat.zero_le _

/-- Behind the first token of an operand. -/
theorem tracks_of_readOperand?
    (hb : taken.count (.char '(') = taken.count (.char ')') + q.levels.length)
    (hn : ∀ x, taken.getLast? ≠ some (.identifier x)) (ho : q.opened ≤ R.maxDepth)
    (h : q.readOperand? R t = some r') : Tracks R r' (taken ++ [t.lexeme]) := by
  obtain ⟨lexeme, l⟩ := t
  unfold readOperand? at h
  cases lexeme with
  | identifier x =>
    obtain rfl := Option.some.inj h
    refine ⟨?_, ?_, ?_, ho⟩
    · simpa [Progress.pending] using hb
    · simp [enters_concat, EntersWith]
    · simp
  | number text =>
    by_cases ha : R.acceptsNumber text = true
    · obtain rfl := Option.some.inj (by simpa [ha] using h)
      refine ⟨?_, ?_, ?_, ho⟩
      · simpa [Progress.pending] using hb
      · simp [enters_concat, EntersWith]
      · simp
    · simp [ha] at h
  | char c =>
    by_cases hc : c = '('
    · subst hc
      obtain rfl := Option.some.inj (by simpa using h)
      refine ⟨?_, ?_, ?_, ho⟩
      · simp [Progress.pending, push]
        omega
      · intro next
        simp [enters_concat, EntersWith, push, hn]
      · simp [push]
    · simp [hc] at h
  | _ => cases h

/-- Behind a token that goes on behind a complete operand. -/
theorem tracks_of_readOn? {e : Node} (hz : r.leastPrecedence = some 0)
    (hb : taken.count (.char '(') = taken.count (.char ')') + r.levels.length)
    (ho : r.opened ≤ R.maxDepth) (h : r.readOn? R e t = some r') :
    Tracks R r' (taken ++ [t.lexeme]) := by
  obtain ⟨lexeme, l⟩ := t
  by_cases hop : 0 < R.precedence lexeme
  · obtain ⟨c, rfl⟩ := R.exists_char_of_precedence_pos hop
    -- neither parentheses nor the comma can be operators
    have hc : ∀ d, PrecedenceTable.isUsable d = false → c ≠ d := by
      rintro d hd rfl
      exact R.precedence_of_not_isUsable hd hop
    have hopen := hc '(' (by decide)
    have hclose := hc ')' (by decide)
    have hcomma := hc ',' (by decide)
    rw [readOn?_operator hz hop] at h
    obtain rfl := Option.some.inj h
    refine ⟨?_, ?_, ?_, ho⟩
    · simpa [Progress.pending, List.count_singleton, hopen, hclose] using hb
    · simp [enters_concat, EntersWith, hopen, hcomma]
    · simp
  · have htakes := takesOperator_of_not_pos hz hop
    obtain ⟨goal, levels, chain, progress, opened⟩ := r
    unfold readOn? at h
    rw [htakes, if_neg Bool.false_ne_true] at h
    dsimp only at hb ho h
    have hle : opened - 1 ≤ R.maxDepth := Nat.le_trans (Nat.sub_le _ _) ho
    -- the innermost parenthesis is closed, or the next argument is entered in it
    have closed : ∀ {outer levels' last}, levels.length = levels'.length + 1 → lexeme = .char ')' →
        Tracks R ⟨goal, levels', outer, .complete last, opened - 1⟩ (taken ++ [lexeme]) := by
      rintro outer levels' last hlevels rfl
      refine ⟨?_, ?_, ?_, hle⟩
      · simp [Progress.pending]
        omega
      · simp [enters_concat, EntersWith]
      · simp
    cases levels with
    | nil => cases h
    | cons level levels =>
      obtain ⟨outer, enclosure⟩ := level
      cases enclosure with
      | group =>
        by_cases hc : lexeme = .char ')'
        · obtain rfl := Option.some.inj (by simpa [Token.isChar, hc] using h)
          exact closed rfl hc
        · simp [Token.isChar, hc] at h
      | call f m arguments =>
        by_cases hc : lexeme = .char ')'
        · obtain rfl := Option.some.inj (by simpa [Token.isChar, hc] using h)
          exact closed rfl hc
        · by_cases hcomma : lexeme = .char ','
          · obtain rfl := Option.some.inj (by simpa [Token.isChar, hcomma] using h)
            refine ⟨?_, ?_, ?_, hle⟩
            · simpa [Progress.pending, push, hcomma] using hb
            · simp [enters_concat, EntersWith, push, hcomma]
            · simp [push, hcomma]
          · simp [Token.isChar, hc, hcomma] at h

/-- Each token that is taken in is accounted for. -/
theorem Tracks.read (hz : r.leastPrecedence = some 0) (ht : Tracks R r taken)
    (h : r.read? R t = some r') : Tracks R r' (taken ++ [t.lexeme]) := by
  obtain ⟨hb, he, hn, ho⟩ := ht
  have unnamed (hp : ∀ x l, r.progress ≠ .named x l) : ∀ x, taken.getLast? ≠ some (.identifier x) := by
    intro x hx
    obtain ⟨y, l, hy⟩ := hn.1 ⟨x, hx⟩
    exact hp y l hy
  by_cases hen : r.EntersWith t.lexeme
  case pos =>
    rw [read?_of_entersWith hen] at h
    split at h
    case isFalse => cases h
    case isTrue hlt =>
      refine tracks_of_readOperand? ?_ ?_ ?_ h
      · rw [length_levels_entered, hb, Nat.add_assoc]
      · apply unnamed
        intro x l hp
        rcases hen with he | ⟨⟨f, m, he⟩, -⟩
        all_goals cases hp.symm.trans he
      · rw [opened_entered]
        exact hlt
  case neg =>
    unfold read? at h
    cases hp : r.progress with
    | entering => exact absurd (.inl hp) hen
    | operand =>
      rw [hp] at h hb
      exact tracks_of_readOperand? hb (unnamed (by simp [hp])) ho h
    | arguments f l =>
      rw [hp] at h hb
      have hc : t.lexeme = .char ')' := by
        by_contra hl
        exact hen (.inr ⟨⟨f, l, hp⟩, hl⟩)
      obtain rfl := Option.some.inj (by simpa [Token.isChar, hc] using h)
      refine ⟨?_, ?_, ?_, ho⟩
      · simp only [Progress.pending] at hb
        simp [Progress.pending, hc]
        omega
      · simp [enters_concat, EntersWith, hc]
      · simp [hc]
    | complete e =>
      rw [hp] at h hb
      exact tracks_of_readOn? hz hb ho h
    | named x l =>
      rw [hp] at h hb
      by_cases hc : t.lexeme = .char '('
      · -- the name is called
        obtain ⟨y, hy⟩ := hn.2 ⟨x, l, hp⟩
        obtain rfl := Option.some.inj (by simpa [Token.isChar, hc] using h)
        refine ⟨?_, ?_, ?_, ho⟩
        · simp only [Progress.pending] at hb
          simp [Progress.pending, hc]
          omega
        · simp [enters_concat, EntersWith, hc, hy]
        · simp [hc]
      · have hc' : ¬ t.isChar '(' = true := by simpa [Token.isChar] using hc
        dsimp only at h
        rw [if_neg hc'] at h
        exact tracks_of_readOn? hz hb ho h

/-- Every token that has been taken in is accounted for. -/
theorem tracks_readAll? (h : (expression 0).readAll? R ts = some r) :
    Tracks R r (ts.map (·.lexeme)) := by
  suffices hall : ∀ (q : Reader) (before : List Token), Begun R 0 q before →
      Tracks R q (before.map (·.lexeme)) → q.readAll? R ts = some r →
      Tracks R r ((before ++ ts).map (·.lexeme)) by
    exact hall _ [] (begun_expression R 0) (tracks_expression R) h
  clear h
  intro q before hb hq h
  induction ts generalizing q before with
  | nil =>
    obtain rfl := Option.some.inj h
    simpa using hq
  | cons t ts ih =>
    rw [readAll?_cons] at h
    obtain ⟨q', hq', h⟩ := Option.bind_eq_some_iff.1 h
    have hnext := ih q' (before ++ [t]) (hb.read hq')
      (by simpa using hq.read hb.leastPrecedence hq') h
    simpa using hnext

/-- A reader that enters an expression has one open for each parenthesis. -/
theorem Begun.opened_of_entersWith (hb : Begun R 0 r ts) (h : r.EntersWith l) :
    r.opened = r.levels.length + r.progress.pending := by
  cases hb with
  | entering _ => simp [Progress.pending]
  | @inside levels c progress us vs ws _ _ _ _ =>
    rcases h with hp | ⟨⟨f, m, hp⟩, -⟩
    · obtain rfl := hp
      contradiction
    · obtain rfl := hp
      simp [Progress.pending]

/-- Where an expression is entered, so many are open as parentheses are. -/
theorem openParentheses_eq (hr : (expression 0).readAll? R ts = some r) (h : r.EntersWith l) :
    openParentheses (ts.map (·.lexeme)) = r.opened := by
  have hb := (tracks_readAll? hr).balance
  have ho := ((begun_expression R 0).readAll hr).opened_of_entersWith h
  unfold openParentheses
  omega

/-- What has been taken in nests no deeper than the limit allows. -/
theorem nestsWithin_readAll? (hr : (expression 0).readAll? R ts = some r) :
    NestsWithin R.maxDepth (ts.map (·.lexeme)) := by
  intro before l behind hts hen
  obtain ⟨as, bs, rfl, rfl, hbs⟩ := List.map_eq_append_iff.1 hts
  obtain ⟨t, cs, rfl, rfl, -⟩ := List.map_eq_cons_iff.1 hbs
  -- the reader in front of the token has entered an expression with it
  rw [readAll?_append] at hr
  obtain ⟨q, hq, hr⟩ := Option.bind_eq_some_iff.1 hr
  rw [readAll?_cons] at hr
  obtain ⟨q', hq', -⟩ := Option.bind_eq_some_iff.1 hr
  have he := ((tracks_readAll? hq).enters t.lexeme).1 hen
  rw [openParentheses_eq hq he]
  by_contra ho
  rw [read?_of_atLimit ⟨he, Nat.not_lt.1 ho⟩] at hq'
  cases hq'

/-- A reader comes to the limit where an expression is entered for the first time though too many
are open. -/
theorem firstTooDeep (hr : (expression 0).readAll? R ts = some r) (h : r.AtLimit R l) :
    FirstTooDeep R.maxDepth (ts.map (·.lexeme)) l where
  enters := ((tracks_readAll? hr).enters l).2 h.1
  full := by
    rw [openParentheses_eq hr h.1]
    exact Nat.le_antisymm (tracks_readAll? hr).opened_le h.2
  first := nestsWithin_readAll? hr

/-- What is read behind tokens that are taken in. -/
theorem runOn_append {us : List Scanned} (h : r.readAll? R (us.map (·.token)) = some r')
    (last : Scanned) (vs : List Scanned) : r.runOn R last (us ++ vs) = r'.runOn R last vs := by
  induction us generalizing r with
  | nil =>
    obtain rfl := Option.some.inj h
    rfl
  | cons u us ih =>
    rw [List.map_cons, readAll?_cons] at h
    obtain ⟨q, hq, h⟩ := Option.bind_eq_some_iff.1 h
    rw [List.cons_append, runOn, hq]
    exact ih h

end Reader

end Expression

/-! ## Forms -/

namespace Parser

open Expression Reader

variable {p : Parser} {limit : Nat} {kind : FormKind}

/-- The limit has cut the reading of an expression short. -/
structure CutShort (p : Parser) (us : List Scanned) (x : Except Failure Node × Parser) : Prop where
  moves : p.upcoming.Moves us x.2.upcoming
  failure : x.1 = .error ⟨.nestingTooDeep p.rules.maxDepth, x.2.upcoming.head⟩
  deep : FirstTooDeep p.rules.maxDepth (us.map (·.token.lexeme)) x.2.upcoming.lexeme

/-- The lookahead that an expression refuses does not close a call without arguments. -/
theorem refused_ne_arguments {r : Reader} {v : Upcoming} {R : Rules}
    (h : ∀ t ∈ v.tokens.head?, r.read? R t.token = none) (hl : v.lexeme = .char ')')
    (f : Value) (l : Location) : r.progress ≠ .arguments f l := by
  intro hp
  obtain ⟨t, hm, -, ht⟩ := Upcoming.moves_of_lexeme hl nofun
  have hn : r.read? R t.token = none := h t (by rw [hm.tokens]; rfl)
  unfold read? at hn
  rw [hp] at hn
  simp [Token.isChar, ht] at hn

/-- What stops the reading of an expression, not being the limit, stops it under every larger
limit. -/
theorem expression_of_not_atLimit {r : Reader} {v : Upcoming} {us : List Scanned}
    (hl : p.rules.maxDepth ≤ limit) (hm : p.upcoming.Moves us v)
    (hr : (Reader.expression p.opened).readAll? p.rules (us.map (·.token)) = some r)
    (hstop : ∀ t ∈ v.tokens.head?, r.read? p.rules t.token = none)
    (h : ¬ r.AtLimit p.rules v.lexeme) :
    p.SameUnder (p.rules.withMaxDepth limit) expression ∧
      ∀ f n, p.expression.1 = .error f → f.fault ≠ .nestingTooDeep n := by
  have hstop' : ∀ t ∈ v.tokens.head?, r.read? (p.rules.withMaxDepth limit) t.token = none := by
    intro t ht
    obtain ⟨ts, hts⟩ := List.head?_eq_some_iff.1 ht
    rw [Upcoming.lexeme_of_tokens hts] at h
    rw [read?_of_not_atLimit hl h]
    exact hstop t ht
  have hread := expression_of_readAll hm hr hstop
  have hread' := expression_of_readAll (p := p.under (p.rules.withMaxDepth limit)) hm
    (readAll?_withMaxDepth hl hr) hstop'
  obtain ⟨hend, hn⟩ := endBefore_of_not_atLimit hl h (refused_ne_arguments hstop)
  constructor
  · show (p.under (p.rules.withMaxDepth limit)).expression = _
    rw [hread', hread, show (p.under (p.rules.withMaxDepth limit)).rules =
      p.rules.withMaxDepth limit from rfl, hend]
    rfl
  · intro f n hf hfault
    rw [hread] at hf
    obtain ⟨fault, he, rfl⟩ := Except.mapError_eq_error_iff.1 hf
    exact hn n (he.trans (congrArg Except.error hfault))

/-- Under a larger limit an expression takes at least the same tokens. -/
theorem expression_goes_on {r : Reader} {us : List Scanned} (hl : p.rules.maxDepth ≤ limit)
    (hm : p.upcoming.Moves us p.expression.2.upcoming)
    (hr : (Reader.expression p.opened).readAll? p.rules (us.map (·.token)) = some r) :
    ∃ vs, p.expression.2.upcoming.Moves vs
      (p.under (p.rules.withMaxDepth limit)).expression.2.upcoming := by
  have hrun := runOn_append (readAll?_withMaxDepth hl hr) p.upcoming.last
    p.expression.2.upcoming.tokens
  rw [← hm.tokens] at hrun
  obtain ⟨⟨vs, hvs⟩, -⟩ := r.runOn_spec (p.rules.withMaxDepth limit) p.upcoming.last
    p.expression.2.upcoming.tokens
  rw [← hrun] at hvs
  exact ⟨vs, hvs, hm.last.symm⟩

/-- Reading an expression takes in what nests within the limit. It is the same under every larger
limit, or it is cut short. -/
theorem expression_limit (ho : p.opened = 0) (hl : p.rules.maxDepth ≤ limit) :
    ∃ us, p.upcoming.Moves us p.expression.2.upcoming ∧
      NestsWithin p.rules.maxDepth (us.map (·.token.lexeme)) ∧
      (∃ vs, p.expression.2.upcoming.Moves vs
        (p.under (p.rules.withMaxDepth limit)).expression.2.upcoming) ∧
      ((p.SameUnder (p.rules.withMaxDepth limit) expression ∧
          ∀ f n, p.expression.1 = .error f → f.fault ≠ .nestingTooDeep n) ∨
        p.CutShort us p.expression) := by
  obtain ⟨us, r, hu, hr, hstop⟩ :=
    runOn_refuses p.rules p.upcoming.last (.expression p.opened) p.upcoming.tokens
  have hm : p.upcoming.Moves us p.expression.2.upcoming := Upcoming.moves_withTokens hu
  have hlexemes : us.map (·.token.lexeme) = (us.map (·.token)).map (·.lexeme) := by
    rw [List.map_map]
    rfl
  have hr₀ := hr
  rw [ho] at hr₀
  refine ⟨us, hm, hlexemes ▸ nestsWithin_readAll? hr₀, expression_goes_on hl hm hr, ?_⟩
  by_cases h : r.AtLimit p.rules p.expression.2.upcoming.lexeme
  · right
    refine ⟨hm, ?_, hlexemes ▸ firstTooDeep hr₀ h⟩
    have hread := congrArg Prod.fst (expression_of_readAll hm hr hstop)
    rw [endBefore_of_atLimit h] at hread
    exact hread
  · left
    exact expression_of_not_atLimit hl hm hr hstop h

/-- A larger limit lets a form go on where it has been cut short, and makes no other difference. -/
structure CutsOnly (p : Parser) (limit : Nat) (kind : FormKind) : Prop where
  /-- Unless it fails because of its depth, the form is read alike. -/
  same : (∀ f n, (p.form kind).1 = .error f → f.fault ≠ .nestingTooDeep n) →
    p.SameUnder (p.rules.withMaxDepth limit) (form · kind)
  /-- If it does, then at the first token with which an expression is entered in it though as many
  as the limit allows are open. -/
  cut : ∀ f n, (p.form kind).1 = .error f → f.fault = .nestingTooDeep n →
    n = p.rules.maxDepth ∧ f.token = (p.form kind).2.upcoming.head ∧
      ∃ b us, p.body? kind = some b ∧ b.upcoming.Moves us (p.form kind).2.upcoming ∧
        FirstTooDeep p.rules.maxDepth (us.map (·.token.lexeme)) f.token.token.lexeme
  /-- No more expressions are open in what has been taken than the limit allows. -/
  within : ∀ b us, p.body? kind = some b → b.upcoming.Moves us (p.form kind).2.upcoming →
    NestsWithin p.rules.maxDepth (us.map (·.token.lexeme))
  /-- Under the larger limit at least the same tokens are taken. -/
  further : ∃ vs, (p.form kind).2.upcoming.Moves vs
    ((p.under (p.rules.withMaxDepth limit)).form kind).2.upcoming

theorem cutsOnly_of_no_body (hb : p.body? kind = none) (limit : Nat) : p.CutsOnly limit kind := by
  have hsame : (p.under (p.rules.withMaxDepth limit)).form kind =
      ((p.form kind).1, (p.form kind).2.under (p.rules.withMaxDepth limit)) :=
    form_of_no_body hb (p.rules.withMaxDepth limit)
  constructor
  case same => exact fun _ => hsame
  case cut =>
    intro f n hf hfault
    rcases fault_of_no_body hb hf with ⟨expected, h⟩ | ⟨name, h⟩ <;> cases h.symm.trans hfault
  case within =>
    intro b us hb'
    cases hb.symm.trans hb'
  case further =>
    rw [hsame]
    exact ⟨[], .refl _⟩

/-- What is so of the expression in a form is so of the form. -/
theorem cutsOnly_of_body {b : Parser} (ho : p.opened = 0) (hl : p.rules.maxDepth ≤ limit)
    (hb : p.body? kind = some b) : p.CutsOnly limit kind := by
  have hkeeps := body?_keeps hb
  have hrules : b.rules = p.rules := by rw [hkeeps]
  have hopened : b.opened = p.opened := by rw [hkeeps]
  have hl' : b.rules.maxDepth ≤ limit := by rwa [hrules]
  obtain ⟨wrap, hform, hunder⟩ := form_of_body hb (p.rules.withMaxDepth limit)
  obtain ⟨us, hm, hwithin, hfurther, hcases⟩ := expression_limit (hopened.trans ho) hl'
  rw [hrules] at hwithin hfurther hcases
  constructor
  case same =>
    intro h
    rcases hcases with ⟨hsame, -⟩ | hcut
    · have hexpression : (b.under (p.rules.withMaxDepth limit)).expression =
          (b.expression.1, b.expression.2.under (p.rules.withMaxDepth limit)) := hsame
      show (p.under (p.rules.withMaxDepth limit)).form kind =
        ((p.form kind).1, (p.form kind).2.under (p.rules.withMaxDepth limit))
      rw [hunder, hform, hexpression]
    · have hfailure : (p.form kind).1 =
          .error ⟨.nestingTooDeep b.rules.maxDepth, b.expression.2.upcoming.head⟩ := by
        rw [hform]
        exact Except.map_eq_error_iff.2 hcut.failure
      exact absurd rfl (h _ _ hfailure)
  case cut =>
    intro f n hf hfault
    rw [hform] at hf
    have hf' := Except.map_eq_error_iff.1 hf
    rcases hcases with ⟨-, hn⟩ | hcut
    · exact absurd hfault (hn f n hf')
    · obtain rfl := Except.error.inj (hcut.failure.symm.trans hf')
      obtain rfl : b.rules.maxDepth = n := Fault.nestingTooDeep.inj hfault
      have hdeep := hcut.deep
      rw [hrules] at hdeep
      rw [hform]
      exact ⟨congrArg Rules.maxDepth hrules, rfl, b, us, hb, hm, hdeep⟩
  case within =>
    intro c vs hc hv
    obtain rfl : b = c := Option.some.inj (hb.symm.trans hc)
    rw [hform] at hv
    rwa [hv.unique hm]
  case further =>
    rw [hform, hunder]
    exact hfurther

theorem form_cutsOnly (ho : p.opened = 0) (hl : p.rules.maxDepth ≤ limit) (kind : FormKind) :
    p.CutsOnly limit kind := by
  cases hb : p.body? kind with
  | none => exact cutsOnly_of_no_body hb limit
  | some b => exact cutsOnly_of_body ho hl hb

end Parser

/-! ## Runs -/

namespace Session

/-- Under a larger limit on nesting a form is read alike, unless it has failed because too many
expressions are open in it; it has done so where that is the case for the first time, and goes on
from there under the larger limit. A run in which no form has failed so is the same. -/
theorem limit_cuts_only (R : Rules) {limit : Nat} (h : R.maxDepth ≤ limit) :
    (∀ (p : Parser) (kind : FormKind), p.rules = R → p.opened = 0 → p.CutsOnly limit kind) ∧
      ∀ (maxErrors : Int) (file : String) (source : Source),
        (∀ r ∈ (start R maxErrors file source).results, ∀ f n, r.outcome = .error f →
          f.fault ≠ .nestingTooDeep n) →
        (start (R.withMaxDepth limit) maxErrors file source).results =
          (start R maxErrors file source).results := by
  have hforms : ∀ (p : Parser) (kind : FormKind), p.rules = R → p.opened = 0 →
      p.CutsOnly limit kind := by
    rintro p kind rfl ho
    exact Parser.form_cutsOnly ho h kind
  refine ⟨hforms, ?_⟩
  intro maxErrors file source hresults
  have hsame : ∀ (p : Parser) (kind : FormKind), p.rules = R → p.opened = 0 →
      (∀ f n, (p.form kind).1 = .error f → f.fault ≠ .nestingTooDeep n) →
      p.SameUnder (R.withMaxDepth limit) (Parser.form · kind) := by
    rintro p kind rfl ho
    exact (hforms p kind rfl ho).same
  have hdrain := drain_under (s := start R maxErrors file source) (R.withMaxDepth limit)
    (fun x => ∀ f n, x = .error f → f.fault ≠ .nestingTooDeep n) hsame rfl rfl hresults
  exact congrArg (fun d => Event.results d.1) hdrain

/-- Of two inputs one nests too deep for a limit of two, and the other does not. -/
theorem cuts_only_within_two : 2 ≤ 256 ∧
    (match ((Parser.start ⟨.standard, 2, true⟩ "p" (.ofString "f(1, (2))")).prime.form
      .expression).1 with
    | .error f => some f.fault
    | .ok _ => none) = some (.nestingTooDeep 2) ∧
    (Parser.start ⟨.standard, 2, true⟩ "p" (.ofString "f(1, (2))")).prime.CutsOnly 256
      .expression ∧
    (start ⟨.standard, 256, true⟩ 100 "p" (.ofString "f(1, 2) (3)")).results =
      (start ⟨.standard, 2, true⟩ 100 "p" (.ofString "f(1, 2) (3)")).results := by
  have hok : ((start ⟨.standard, 2, true⟩ 100 "p" (.ofString "f(1, 2) (3)")).results.all
      fun r => r.outcome.isOk) = true := by
    decide +kernel
  have h := limit_cuts_only ⟨.standard, 2, true⟩ (show 2 ≤ 256 by decide)
  refine ⟨by decide, by decide +kernel, h.1 _ _ rfl rfl,
    h.2 100 "p" (.ofString "f(1, 2) (3)") ?_⟩
  intro r hr f n hf
  have hr' := List.all_eq_true.1 hok r hr
  rw [hf] at hr'
  cases hr'

end Session

end OperatorGrammar
