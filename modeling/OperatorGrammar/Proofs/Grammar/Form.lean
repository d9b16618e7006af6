import Mathlib.Data.List.Nodup
import OperatorGrammar.Proofs.Consumption
import OperatorGrammar.Proofs.Grammar.Beginning

/-!
Forms, said through their derivations. Reading a form succeeds on the tokens of a derivation that
fits the rules, and on nothing else, provided that the token behind them does not go on with it.
Main statements: `Parser.form_of_ok`, whatever is read is a form, and `Parser.form_of_fits`, every
form is read.
-/

namespace OperatorGrammar

/-- A prototype as it is written: `prototype ::= IDENTIFIER '(' IDENTIFIER* ')'`. -/
structure Signature where
  name : String
  location : Location
  opening : Location
  /-- The parameters with their places. -/
  parameters : List (String × Location)
  closing : Location

namespace Signature

def parameterTokens (parameters : List (String × Location)) : List Token :=
  parameters.map fun x => ⟨.identifier x.1, x.2⟩

def tokens (g : Signature) : List Token :=
  ⟨.identifier g.name, g.location⟩ :: ⟨.char '(', g.opening⟩ ::
    (parameterTokens g.parameters ++ [⟨.char ')', g.closing⟩])

def prototype (g : Signature) : Prototype :=
  ⟨g.name, g.parameters.map Prod.fst, some g.location⟩

/-- No two parameters have the same name. -/
def Fits (g : Signature) : Prop := (g.parameters.map Prod.fst).Nodup

end Signature

namespace Phrase

/-- The place of the first token of a primary. -/
def location : Phrase .primary → Location
  | name _ l | number _ l | group l _ _ | emptyCall _ l _ _ | call _ l _ _ _ => l

/-- The place of the first token of an expression. -/
def start : Phrase .expression → Location
  | chain p _ => p.location

end Phrase

/-- The derivations of `top`. -/
inductive Form where
  /-- `definition ::= 'def' prototype expression` -/
  | definition (keyword : Location) (g : Signature) (body : Phrase .expression)
  /-- `external ::= 'extern' prototype` -/
  | external (keyword : Location) (g : Signature)
  | expression (e : Phrase .expression)
  /-- `top ::= ';'` -/
  | semicolon (l : Location)

namespace Form

def tokens : Form → List Token
  | definition l g body => ⟨.define, l⟩ :: (g.tokens ++ body.tokens)
  | external l g => ⟨.external, l⟩ :: g.tokens
  | expression e => e.tokens
  | semicolon l => [⟨.char ';', l⟩]

/-- What the rules ask of a form. -/
def Fits (R : Rules) : Form → Prop
  | definition _ g body => g.Fits ∧ body.Fits R R.maxDepth
  | external _ g => g.Fits
  | expression e => e.Fits R R.maxDepth
  | semicolon _ => True

/-- The result of a form; a semicolon has none. -/
def result? (R : Rules) : Form → Option FormResult
  | definition l g body =>
    some ⟨.definition, .ok (.function g.prototype (body.meaning R) (some l))⟩
  | external _ g => some ⟨.external, .ok (.prototype g.prototype)⟩
  | expression e =>
    some ⟨.expression,
      .ok (.function (.anonymous (some e.start)) (e.meaning R) (some e.start))⟩
  | semicolon _ => none

end Form

/-! ## The end of an expression -/

/-- The last of the tokens is a name. A parenthesis behind it would open a call. -/
def EndsInName (ts : List Token) : Prop := ∃ us x l, ts = us ++ [⟨.identifier x, l⟩]

/-- Whether an expression with these tokens ends in front of a lexeme. -/
structure EndsBefore (R : Rules) (ts : List Token) (next : Lexeme) : Prop where
  operator : ¬ 0 < R.precedence next
  call : EndsInName ts → next ≠ .char '('

namespace Expression.Reader

variable {R : Rules} {r r' : Reader} {e n : Node} {outside : Nat} {us : List Scanned}

theorem Begun.endsInName {ts : List Token} {x : Value} {l : Location} (h : Begun R outside r ts)
    (hp : r.progress = .named x l) : EndsInName ts := by
  cases h with
  | entering hu => exact absurd hp nofun
  | inside hu ho hc hw =>
    obtain rfl := hp
    obtain ⟨y, -, rfl⟩ := hw
    exact ⟨_, y, l, rfl⟩

/-- If tokens are taken in and what is behind them is not, then they are what is read. -/
theorem runOn_of_readAll (last : Scanned) (vs : List Scanned)
    (h : r.readAll? R (us.map (·.token)) = some r')
    (hstop : ∀ t ∈ vs.head?, r'.read? R t.token = none) :
    r.runOn R last (us ++ vs) =
      ⟨(r'.endBefore R (vs.headD last).token.lexeme).mapError (⟨·, vs.headD last⟩), vs,
        r'.leftOpen⟩ := by
  induction us generalizing r with
  | nil =>
    obtain rfl := Option.some.inj h
    cases vs with
    | nil => rfl
    | cons v vs => simp [runOn, hstop v rfl]
  | cons u us ih =>
    rw [List.map_cons, readAll?_cons] at h
    obtain ⟨q, hq, h⟩ := Option.bind_eq_some_iff.1 h
    simp only [List.cons_append, runOn, hq]
    exact ih h

/-- Where an expression may end, the operand behind the chain is there. -/
theorem endBefore_of_operand {next : Lexeme} (he : r.progress.operand? = some e) :
    r.endBefore R next = r.endOn R e next := by
  unfold endBefore
  cases hp : r.progress with
  | named x l =>
    obtain rfl : .reference x (some l) = e := by simpa [hp, Progress.operand?] using he
    rfl
  | complete d =>
    obtain rfl : d = e := by simpa [hp, Progress.operand?] using he
    rfl
  | _ => simp [hp, Progress.operand?] at he

theorem exists_operand_of_endBefore {next : Lexeme} (h : r.endBefore R next = .ok n) :
    ∃ e, r.progress.operand? = some e := by
  unfold endBefore at h
  cases hp : r.progress with
  | named x l => exact ⟨_, rfl⟩
  | complete e => exact ⟨e, rfl⟩
  | _ =>
    rw [hp] at h
    cases h

theorem endBefore_of_ok {next : Lexeme} (h : r.endBefore R next = .ok n) :
    r.levels = [] ∧ ∃ e, r.progress.operand? = some e ∧ n = r.chain.close e := by
  obtain ⟨e, he⟩ := exists_operand_of_endBefore h
  rw [endBefore_of_operand he, endOn] at h
  split at h
  · rename_i hl
    split at h
    · cases h
    · exact ⟨hl, e, he, (Except.ok.inj h).symm⟩
  · cases h
  · cases h

theorem endBefore_eq_ok {next : Lexeme} (hl : r.levels = []) (hz : r.leastPrecedence = some 0)
    (he : r.progress.operand? = some e) (hn : ¬ 0 < R.precedence next) :
    r.endBefore R next = .ok (r.chain.close e) := by
  rw [endBefore_of_operand he]
  simp [endOn, hl, takesOperator_of_not_pos hz hn]

/-- Behind a complete operand nothing is taken in but operators and the parenthesis of a call. -/
theorem read?_eq_none {t : Token} (hl : r.levels = []) (hz : r.leastPrecedence = some 0)
    (he : r.progress.operand? = some e) (hn : ¬ 0 < R.precedence t.lexeme)
    (hc : ∀ x l, r.progress = .named x l → t.isChar '(' = false) : r.read? R t = none := by
  have on : r.readOn? R e t = none := by
    simp [readOn?, hl, takesOperator_of_not_pos hz hn]
  unfold read?
  cases hp : r.progress with
  | named x l =>
    obtain rfl : .reference x (some l) = e := by simpa [hp, Progress.operand?] using he
    simp [hc x l hp, on]
  | complete d =>
    obtain rfl : d = e := by simpa [hp, Progress.operand?] using he
    exact on
  | _ => simp [hp, Progress.operand?] at he

end Expression.Reader

namespace Parser

variable {p q : Parser} {n : Node} {us vs : List Scanned}

open Expression Expression.Reader

/-- Reading an expression leaves as many open as were open before. -/
theorem expression_keeps (p : Parser) :
    p.expression.2 = { p with upcoming := p.expression.2.upcoming } := by
  obtain ⟨us, r, t, -, -, hr, ho, -⟩ :=
    runOn_ends p.rules p.upcoming.last (.expression p.opened) p.upcoming.tokens
  have hb := (begun_expression p.rules p.opened).readAll hr
  simp only [expression, run, Reader.run, ho, hb.leftOpen]

/-- What is read as an expression is one. -/
theorem expression_of_ok (h : p.expression = (.ok n, q)) :
    ∃ (e : Phrase .expression) (us : List Scanned), e.Fits p.rules (p.rules.maxDepth - p.opened) ∧
      e.meaning p.rules = n ∧ p.upcoming.Moves us q.upcoming ∧
      us.map (·.token) = e.tokens := by
  obtain ⟨us, r, t, hu, -, hr, -, he⟩ :=
    runOn_ends p.rules p.upcoming.last (.expression p.opened) p.upcoming.tokens
  have hres : ((Reader.expression p.opened).runOn p.rules p.upcoming.last
      p.upcoming.tokens).result = .ok n := congrArg Prod.fst h
  rw [he, Except.mapError_eq_ok_iff] at hres
  obtain ⟨hl, d, hd, rfl⟩ := endBefore_of_ok hres
  obtain ⟨e, hf, ht, hm⟩ := ((begun_expression p.rules p.opened).readAll hr).expression hl hd
  refine ⟨e, us, hf, hm, ?_, by simpa using ht.symm⟩
  have hq : q = p.expression.2 := (congrArg Prod.snd h).symm
  rw [hq]
  exact Upcoming.moves_withTokens hu

/-- An expression is read if nothing behind it goes on with it. -/
theorem expression_of_fits {e : Phrase .expression}
    (hf : e.Fits p.rules (p.rules.maxDepth - p.opened)) (hu : p.upcoming.tokens = us ++ vs)
    (ht : us.map (·.token) = e.tokens)
    (hn : EndsBefore p.rules e.tokens (p.upcoming.withTokens vs).lexeme) :
    p.expression = (.ok (e.meaning p.rules), { p with upcoming := p.upcoming.withTokens vs }) := by
  obtain ⟨chain, progress, d, hr, hd, hc⟩ :=
    e.isRead (.expression p.opened) rfl rfl rfl hf
  have hb := (begun_expression p.rules p.opened).readAll hr
  have hhead : (p.upcoming.withTokens vs).lexeme = (vs.headD p.upcoming.last).token.lexeme := by
    cases vs <;> rfl
  rw [hhead] at hn
  rw [← ht] at hr
  have hrun := runOn_of_readAll p.upcoming.last vs hr (by
    intro t hv
    obtain ⟨vs', rfl⟩ : ∃ vs', vs = t :: vs' := by
      cases vs with
      | nil => exact absurd hv nofun
      | cons v vs' =>
        obtain rfl := Option.some.inj hv
        exact ⟨vs', rfl⟩
    -- only behind a name does it matter that no parenthesis follows
    apply read?_eq_none rfl rfl hd hn.operator
    intro x l hp
    have := hn.call (hb.endsInName hp)
    simpa [Token.isChar] using this)
  rw [← hu, endBefore_eq_ok rfl rfl hd hn.operator, hb.leftOpen] at hrun
  simp only [expression, run, Reader.run, hrun, hc]
  rfl

end Parser

/-! ## Prototypes -/

namespace Prototype

variable {u v : Upcoming} {us vs ts left : List Scanned} {read ps : List String}

theorem readParameters_of_ok (h : readParameters read ts = (.ok ps, left)) (hd : read.Nodup) :
    ∃ (us : List Scanned) (xs : List (String × Location)), ts = us ++ left ∧
      us.map (·.token) = Signature.parameterTokens xs ∧
      ps = read.reverse ++ xs.map Prod.fst ∧ ps.Nodup := by
  induction ts generalizing read with
  | nil =>
    obtain ⟨rfl, rfl⟩ := by simpa [readParameters] using h
    exact ⟨[], [], rfl, rfl, by simp, List.nodup_reverse.2 hd⟩
  | cons t ts ih =>
    simp only [readParameters] at h
    split at h
    · rename_i x hx
      split at h
      · simp at h
      · rename_i hm
        obtain ⟨us, xs, hu, ht, hp, hn⟩ := ih h (List.nodup_cons.2 ⟨hm, hd⟩)
        refine ⟨t :: us, (x, t.token.location) :: xs, by rw [hu]; rfl, ?_, by simp [hp], hn⟩
        rw [List.map_cons, ht, Signature.parameterTokens, Signature.parameterTokens, List.map_cons,
          ← hx]
    · obtain ⟨rfl, rfl⟩ := by simpa using h
      exact ⟨[], [], rfl, rfl, by simp, List.nodup_reverse.2 hd⟩

theorem readParameters_of_fits {xs : List (String × Location)} {next : Scanned}
    (ht : us.map (·.token) = Signature.parameterTokens xs)
    (hd : (read.reverse ++ xs.map Prod.fst).Nodup) (hn : ∀ x, next.token.lexeme ≠ .identifier x) :
    readParameters read (us ++ next :: left) =
      (.ok (read.reverse ++ xs.map Prod.fst), next :: left) := by
  induction xs generalizing us read with
  | nil =>
    obtain rfl : us = [] := by simpa [Signature.parameterTokens] using ht
    simp only [List.nil_append, readParameters, List.map_nil, List.append_nil]
  | cons x xs ih =>
    cases us with
    | nil => simp [Signature.parameterTokens] at ht
    | cons t us =>
      obtain ⟨hx, ht⟩ := by
        simpa only [Signature.parameterTokens, List.map_cons, List.cons.injEq] using ht
      have hm : x.1 ∉ read := by
        intro hm
        exact (List.nodup_append.1 hd).2.2 x.1 (List.mem_reverse.2 hm) x.1 (by simp) rfl
      have hrev : (x.1 :: read).reverse ++ xs.map Prod.fst = read.reverse ++ (x :: xs).map Prod.fst := by
        simp
      simp only [List.cons_append, readParameters, hx, if_neg hm]
      rw [ih ht (hrev ▸ hd), hrev]

/-- What is read as a prototype is one. -/
theorem read_of_ok {proto : Prototype} (h : Prototype.read u = (.ok proto, v)) :
    ∃ (g : Signature) (us : List Scanned), g.Fits ∧ g.prototype = proto ∧ u.Moves us v ∧
      us.map (·.token) = g.tokens := by
  unfold Prototype.read at h
  split at h
  · rename_i name hname
    obtain ⟨a, ha, hat, hal⟩ := Upcoming.moves_of_lexeme hname nofun
    simp only at h
    split at h
    · rename_i ho
      obtain ⟨b, hb, -, hbl⟩ := Upcoming.moves_of_lexeme ho nofun
      split at h
      · simp at h
      · rename_i parameters left hr
        obtain ⟨us, xs, hu, ht, hp, hd⟩ := readParameters_of_ok hr List.nodup_nil
        split at h
        · rename_i hc
          obtain ⟨c, hm, -, hcl⟩ := Upcoming.moves_of_lexeme hc nofun
          obtain ⟨rfl, rfl⟩ := by simpa using h
          have hw := (ha.trans hb).trans (Upcoming.moves_withTokens hu)
          refine ⟨⟨name, a.token.location, b.token.location, xs, c.token.location⟩, _, ?_, ?_,
            hw.trans hm, ?_⟩
          · rw [hp] at hd
            simpa [Signature.Fits] using hd
          · rw [Signature.prototype, hat, hp]
            rfl
          · simp only [Signature.tokens, List.map_append, List.map_cons, List.map_nil, ht, ← hal,
              ← hbl, ← hcl]
            rfl
        · simp [missing] at h
    · simp [missing] at h
  · simp [missing] at h

/-- Every prototype is read. -/
theorem read_of_fits {g : Signature} (hg : g.Fits) (hu : u.tokens = us ++ vs)
    (ht : us.map (·.token) = g.tokens) :
    Prototype.read u = (.ok g.prototype, u.withTokens vs) := by
  simp only [Signature.tokens, List.map_eq_cons_iff, List.map_eq_append_iff] at ht
  obtain ⟨a, us', rfl, ha, b, us'', rfl, hb, ps, cs, rfl, hp, c, cs', rfl, hc, hcs⟩ := ht
  obtain rfl : cs' = [] := List.map_eq_nil_iff.1 hcs
  have hname : u.lexeme = .identifier g.name := by
    rw [Upcoming.lexeme_of_tokens hu, ha]
  have hopening : u.advance.lexeme = .char '(' := by
    rw [Upcoming.lexeme_of_tokens (u := u.advance) (congrArg List.tail hu), hb]
  have hplace : u.head.token.location = g.location := by
    rw [Upcoming.head_of_tokens hu, ha]
  have hrest : u.advance.advance.tokens = ps ++ c :: vs := by simp [hu]
  have hr : readParameters [] (ps ++ c :: vs) = (.ok (g.parameters.map Prod.fst), c :: vs) :=
    readParameters_of_fits hp (by simpa [Signature.Fits] using hg) (by simp [hc])
  have hclosing : (u.withTokens (c :: vs)).lexeme = .char ')' := by
    rw [Upcoming.lexeme_of_tokens rfl, hc]
  simp only [Prototype.read, hname, hopening, hrest, hr, hclosing, hplace, if_true]
  rfl

end Prototype

/-! ## Forms -/

/-- What may stand at the start of an expression opens no other form and is no operator. -/
structure Lexeme.OpensExpression (x : Lexeme) : Prop where
  kind : FormKind.ofLexeme x = .expression
  ne_semicolon : x ≠ .char ';'
  precedence : ∀ R : Rules, ¬ 0 < R.precedence x

theorem Phrase.exists_tokens_eq_cons (e : Phrase .expression) :
    ∃ x ts, e.tokens = ⟨x, e.start⟩ :: ts ∧ x.OpensExpression := by
  cases e with
  | chain p ps =>
    have hparen : (Lexeme.char '(').OpensExpression :=
      ⟨rfl, by decide, fun R => R.precedence_of_not_isUsable (by decide)⟩
    cases p with
    | name x l => exact ⟨_, _, rfl, rfl, nofun, fun _ => nofun⟩
    | number text l => exact ⟨_, _, rfl, rfl, nofun, fun _ => nofun⟩
    | group l e l' => exact ⟨_, _, rfl, hparen⟩
    | emptyCall f l l' l'' => exact ⟨_, _, rfl, rfl, nofun, fun _ => nofun⟩
    | call f l l' as l'' => exact ⟨_, _, rfl, rfl, nofun, fun _ => nofun⟩

theorem EndsInName.append {ts us : List Token} (h : EndsInName us) : EndsInName (ts ++ us) := by
  obtain ⟨vs, x, l, rfl⟩ := h
  exact ⟨ts ++ vs, x, l, (List.append_assoc ..).symm⟩

theorem EndsBefore.of_append {R : Rules} (ts : List Token) {us : List Token} {next : Lexeme}
    (h : EndsBefore R (ts ++ us) next) : EndsBefore R us next :=
  ⟨h.operator, fun hu => h.call hu.append⟩

namespace Parser

variable {p q : Parser} {n : Node} {us vs : List Scanned} {u : Upcoming}

theorem prototype_keeps {result : Except Failure Prototype} (h : p.next.prototype = (result, q)) :
    q = { p with upcoming := q.upcoming } := by
  obtain rfl : p.next.prototype.2 = q := congrArg Prod.snd h
  rfl

/-- Reading a form changes nothing but what is to come. -/
theorem form_keeps (p : Parser) (kind : FormKind) :
    (p.form kind).2 = { p with upcoming := (p.form kind).2.upcoming } := by
  cases kind with
  | definition =>
    show p.definition.2 = { p with upcoming := p.definition.2.upcoming }
    rcases hq : p.next.prototype with ⟨f | proto, q⟩
    · rw [definition_of_error hq]
      exact prototype_keeps hq
    · rw [definition_of_ok hq]
      have hk := q.expression_keeps
      rw [prototype_keeps hq] at hk ⊢
      exact hk
  | external => rfl
  | expression => exact p.expression_keeps

/-- The parser is in front of a form with a node, which ends in front of `u`. -/
def IsBeforeForm (p : Parser) (kind : FormKind) (n : Node) (u : Upcoming) : Prop :=
  ∃ (F : Form) (us : List Scanned), F.Fits p.rules ∧ F.result? p.rules = some ⟨kind, .ok n⟩ ∧
    p.upcoming.Moves us u ∧ us.map (·.token) = F.tokens

theorem prototype_of_ok {proto : Prototype} (h : p.next.prototype = (.ok proto, q)) :
    ∃ (g : Signature) (us : List Scanned), g.Fits ∧ g.prototype = proto ∧
      p.next.upcoming.Moves us q.upcoming ∧ us.map (·.token) = g.tokens ∧
      q = { p with upcoming := q.upcoming } := by
  have hr : Prototype.read p.next.upcoming =
      (p.next.prototype.1, p.next.prototype.2.upcoming) := rfl
  rw [h] at hr
  obtain ⟨g, us, hg, hproto, hm, ht⟩ := Prototype.read_of_ok hr
  exact ⟨g, us, hg, hproto, hm, ht, prototype_keeps h⟩

theorem definition_isBeforeForm (hl : p.upcoming.lexeme = .define) (ho : p.opened = 0)
    (h : p.definition = (.ok n, q)) : p.IsBeforeForm .definition n q.upcoming := by
  obtain ⟨a, ha, hat, hal⟩ := Upcoming.moves_of_lexeme hl nofun
  rcases hr : p.next.prototype with ⟨f | proto, r⟩
  · rw [definition_of_error hr] at h
    cases congrArg Prod.fst h
  · rw [definition_of_ok hr] at h
    obtain ⟨g, us, hg, rfl, hm, ht, hk⟩ := prototype_of_ok hr
    obtain ⟨b, hb, rfl⟩ := Except.map_eq_ok_iff.1 (congrArg Prod.fst h)
    obtain rfl : r.expression.2 = q := congrArg Prod.snd h
    obtain ⟨e, vs, he, rfl, hv, hvt⟩ := expression_of_ok (Prod.ext hb rfl)
    rw [hk] at he ⊢
    simp only [ho, Nat.sub_zero] at he
    refine ⟨.definition a.token.location g e, _, ⟨hg, he⟩, by rw [Form.result?, hat],
      (ha.trans hm).trans (hk ▸ hv), ?_⟩
    simp only [List.map_append, List.map_cons, List.map_nil, ht, hvt, Form.tokens, ← hal]
    rfl

theorem external_isBeforeForm (hl : p.upcoming.lexeme = .external)
    (h : p.external = (.ok n, q)) : p.IsBeforeForm .external n q.upcoming := by
  obtain ⟨a, ha, -, hal⟩ := Upcoming.moves_of_lexeme hl nofun
  obtain ⟨proto, hproto, rfl⟩ := Except.map_eq_ok_iff.1 (congrArg Prod.fst h)
  have hr : p.next.prototype = (.ok proto, q) :=
    Prod.ext hproto (show p.external.2 = q from congrArg Prod.snd h)
  obtain ⟨g, us, hg, rfl, hm, ht, -⟩ := prototype_of_ok hr
  refine ⟨.external a.token.location g, _, hg, rfl, ha.trans hm, ?_⟩
  simp only [List.map_append, List.map_cons, List.map_nil, ht, Form.tokens, ← hal]
  rfl

theorem topLevelExpression_isBeforeForm (ho : p.opened = 0)
    (h : p.topLevelExpression = (.ok n, q)) : p.IsBeforeForm .expression n q.upcoming := by
  obtain ⟨b, hb, rfl⟩ := Except.map_eq_ok_iff.1 (congrArg Prod.fst h)
  have hr : p.expression = (.ok b, q) :=
    Prod.ext hb (show p.topLevelExpression.2 = q from congrArg Prod.snd h)
  obtain ⟨e, us, he, rfl, hm, ht⟩ := expression_of_ok hr
  rw [ho, Nat.sub_zero] at he
  -- the first token that has been read is the one that the tree remembers
  have hplace : p.upcoming.head.token.location = e.start := by
    obtain ⟨x, ts, hx, -⟩ := e.exists_tokens_eq_cons
    rw [hx] at ht
    obtain ⟨t, us', rfl, hta, -⟩ := List.map_eq_cons_iff.1 ht
    rw [Upcoming.head_of_tokens hm.tokens, hta]
  exact ⟨.expression e, us, he, by rw [Form.result?, hplace], hm, ht⟩

/-- What is read as a form is one. -/
theorem form_of_ok (ho : p.opened = 0) (h : p.form (.ofLexeme p.upcoming.lexeme) = (.ok n, q)) :
    p.IsBeforeForm (.ofLexeme p.upcoming.lexeme) n q.upcoming := by
  cases hl : p.upcoming.lexeme with
  | define => exact definition_isBeforeForm hl ho (by rwa [hl] at h)
  | external => exact external_isBeforeForm hl (by rwa [hl] at h)
  | _ => exact topLevelExpression_isBeforeForm ho (by rwa [hl] at h)

/-- The parser is in front of a form with this result, behind which `vs` are to come. -/
def ReadsForm (p : Parser) (r : FormResult) (vs : List Scanned) : Prop :=
  p.upcoming.head.token.isChar ';' = false ∧ r.kind = .ofLexeme p.upcoming.lexeme ∧
    p.form (.ofLexeme p.upcoming.lexeme) =
      (r.outcome, { p with upcoming := p.upcoming.withTokens vs })

theorem expression_readsForm {e : Phrase .expression} (ho : p.opened = 0)
    (hf : e.Fits p.rules p.rules.maxDepth) (hu : p.upcoming.tokens = us ++ vs)
    (ht : us.map (·.token) = e.tokens)
    (hn : EndsBefore p.rules e.tokens (p.upcoming.withTokens vs).lexeme) :
    p.ReadsForm ⟨.expression,
      .ok (.function (.anonymous (some e.start)) (e.meaning p.rules) (some e.start))⟩ vs := by
  have he := expression_of_fits (by rwa [ho, Nat.sub_zero]) hu ht hn
  obtain ⟨x, ts, hx, hk, hs, -⟩ := e.exists_tokens_eq_cons
  rw [hx] at ht
  obtain ⟨t, us', rfl, hta, -⟩ := List.map_eq_cons_iff.1 ht
  rw [ReadsForm, Upcoming.lexeme_of_tokens hu, Upcoming.head_of_tokens hu, hta, hk]
  refine ⟨by simpa [Token.isChar] using hs, rfl, ?_⟩
  simp only [form, topLevelExpression, he, Upcoming.head_of_tokens hu, hta]
  rfl

theorem external_readsForm {l : Location} {g : Signature} (hg : g.Fits)
    (hu : p.upcoming.tokens = us ++ vs) (ht : us.map (·.token) = ⟨.external, l⟩ :: g.tokens) :
    p.ReadsForm ⟨.external, .ok (.prototype g.prototype)⟩ vs := by
  obtain ⟨t, us', rfl, hta, ht'⟩ := List.map_eq_cons_iff.1 ht
  have hr := Prototype.read_of_fits (u := p.next.upcoming) hg (congrArg List.tail hu) ht'
  rw [ReadsForm, Upcoming.lexeme_of_tokens hu, Upcoming.head_of_tokens hu, hta]
  refine ⟨rfl, rfl, ?_⟩
  simp only [form, FormKind.ofLexeme, external, prototype, hr]
  rfl

theorem definition_readsForm {l : Location} {g : Signature} {body : Phrase .expression}
    (ho : p.opened = 0) (hg : g.Fits) (hf : body.Fits p.rules p.rules.maxDepth)
    (hu : p.upcoming.tokens = us ++ vs)
    (ht : us.map (·.token) = ⟨.define, l⟩ :: (g.tokens ++ body.tokens))
    (hn : EndsBefore p.rules body.tokens (p.upcoming.withTokens vs).lexeme) :
    p.ReadsForm ⟨.definition, .ok (.function g.prototype (body.meaning p.rules) (some l))⟩ vs := by
  obtain ⟨t, us', rfl, hta, ht'⟩ := List.map_eq_cons_iff.1 ht
  obtain ⟨us₁, us₂, rfl, ht₁, ht₂⟩ := List.map_eq_append_iff.1 ht'
  have hnext : p.next.upcoming.tokens = us₁ ++ (us₂ ++ vs) := by
    rw [← List.append_assoc]
    exact congrArg List.tail hu
  have hr := Prototype.read_of_fits hg hnext ht₁
  have hq : p.next.prototype =
      (.ok g.prototype, { p with upcoming := p.upcoming.withTokens (us₂ ++ vs) }) := by
    simp only [prototype, hr]
    rfl
  have he := expression_of_fits (p := { p with upcoming := p.upcoming.withTokens (us₂ ++ vs) })
    (by simpa only [ho, Nat.sub_zero] using hf) (Upcoming.withTokens_tokens _ (us₂ ++ vs)) ht₂ hn
  rw [ReadsForm, Upcoming.lexeme_of_tokens hu, Upcoming.head_of_tokens hu, hta]
  refine ⟨rfl, rfl, ?_⟩
  simp only [form, FormKind.ofLexeme, definition_of_ok hq, he, Upcoming.head_of_tokens hu, hta]
  rfl

/-- Every form is read, if nothing behind it goes on with it. -/
theorem form_of_fits {F : Form} {r : FormResult} (ho : p.opened = 0) (hf : F.Fits p.rules)
    (hr : F.result? p.rules = some r) (hu : p.upcoming.tokens = us ++ vs)
    (ht : us.map (·.token) = F.tokens)
    (hn : EndsBefore p.rules F.tokens (p.upcoming.withTokens vs).lexeme) : p.ReadsForm r vs := by
  cases F with
  | semicolon l => cases hr
  | expression e =>
    obtain rfl := Option.some.inj hr
    exact expression_readsForm ho hf hu ht hn
  | external l g =>
    obtain rfl := Option.some.inj hr
    exact external_readsForm hf hu ht
  | definition l g body =>
    obtain rfl := Option.some.inj hr
    have hb : EndsBefore p.rules body.tokens (p.upcoming.withTokens vs).lexeme :=
      EndsBefore.of_append (⟨.define, l⟩ :: g.tokens) hn
    exact definition_readsForm ho hf.1 hf.2 hu ht hb

end Parser

end OperatorGrammar
