import OperatorGrammar.Proofs.ReadBack
import OperatorGrammar.Proofs.Scanning.Lossless
import OperatorGrammar.Proofs.Turn.Under

/-!
The shape of the trees of a run. Names are words of the input, numbers are those of its number
tokens, operators are in the table, and calls nest as deep as the rules allow and no deeper. Main
statements: `Phrase.isShaped`, one case for each production, and `Session.ofOptions_isShaped`.
-/

namespace OperatorGrammar

/-- The trees of expressions that are read from lexemes in `xs`. Into the arguments of at most
`depth` calls one has to go to come to any expression in such a tree. -/
inductive Node.IsExpression (R : Rules) (xs : List Lexeme) : (depth : Nat) → Node → Prop where
  | number {depth : Nat} {text : String} {l : Option Location} : .number text ∈ xs →
    (R.strictNumbers = true → Literal.isWellFormed text = true) →
      IsExpression R xs depth (.number (.number (Literal.value text)) l)
  | reference {depth : Nat} {x : String} {l : Option Location} : IsName x →
    IsExpression R xs depth (.reference (.text x) l)
  | binary {depth : Nat} {c : Char} {left right : Node} {l : Option Location} :
    0 < R.table.precedence c → IsExpression R xs depth left → IsExpression R xs depth right →
      IsExpression R xs depth (.binary c.toString left right l)
  | emptyCall {depth : Nat} {f : String} {l : Option Location} : IsName f →
    IsExpression R xs depth (.call (.text f) [] l)
  | call {depth : Nat} {f : String} {as : List Node} {l : Option Location} : IsName f →
    as ≠ [] → (∀ a ∈ as, IsExpression R xs depth a) →
      IsExpression R xs (depth + 1) (.call (.text f) as l)

/-- A prototype that has a name. -/
structure Prototype.IsNamed (p : Prototype) : Prop where
  name : IsName p.name
  parameters : ∀ x ∈ p.parameters, IsName x
  nodup : p.parameters.Nodup

/-- What the forms of a kind give: a definition gives a function, an external declaration gives a
prototype, and an expression gives a function that has neither a name nor parameters. -/
inductive FormKind.Gives (R : Rules) (xs : List Lexeme) : FormKind → Node → Prop where
  | definition {p : Prototype} {body : Node} {l : Option Location} : p.IsNamed →
    body.IsExpression R xs (R.maxDepth - 1) → Gives R xs .definition (.function p body l)
  | external {p : Prototype} : p.IsNamed → Gives R xs .external (.prototype p)
  | expression {m l : Option Location} {body : Node} : body.IsExpression R xs (R.maxDepth - 1) →
    Gives R xs .expression (.function (.anonymous m) body l)

theorem IsName.ne_empty {x : String} (h : IsName x) : x ≠ "" := by
  obtain ⟨c, cs, hx, -, -⟩ := h.letters
  rintro rfl
  cases hx

/-- A prototype with a name is not the anonymous one. -/
theorem Prototype.IsNamed.isAnonymous {p : Prototype} (h : p.IsNamed) : p.isAnonymous = false := by
  simpa [Prototype.isAnonymous] using h.name.ne_empty

variable {R : Rules} {xs : List Lexeme} {depth : Nat}

/-! ## Chains -/

namespace Expression

/-- An operator with its precedence in the table. -/
def Joint.IsShaped (R : Rules) (j : Joint) : Prop :=
  ∃ c : Char, j.operator = c.toString ∧ 0 < R.table.precedence c

namespace Chain

/-- The operands of a chain are expressions, and its operators are operators. -/
def IsShaped (R : Rules) (xs : List Lexeme) (depth : Nat) (pending : Chain) : Prop :=
  ∀ d ∈ pending, d.1.IsExpression R xs depth ∧ d.2.IsShaped R

variable {pending : Chain} {e left right : Node} {j : Joint}

theorem isExpression_join (hl : left.IsExpression R xs depth) (hj : j.IsShaped R)
    (hr : right.IsExpression R xs depth) : (join left j right).IsExpression R xs depth := by
  obtain ⟨c, ho, hc⟩ := hj
  rw [join, ho]
  exact .binary hc hl hr

theorem isExpression_joinAll (hp : IsShaped R xs depth pending)
    (he : right.IsExpression R xs depth) :
    (joinAll right pending).IsExpression R xs depth := by
  induction pending generalizing right with
  | nil => exact he
  | cons d pending ih =>
    obtain ⟨⟨hl, hj⟩, hp⟩ := List.forall_mem_cons.1 hp
    exact ih hp (isExpression_join hl hj he)

theorem isShaped_joinTighter (precedence : Int) (hp : IsShaped R xs depth pending)
    (he : right.IsExpression R xs depth) :
    (joinTighter precedence right pending).1.IsExpression R xs depth ∧
      IsShaped R xs depth (joinTighter precedence right pending).2 := by
  induction pending generalizing right with
  | nil => exact ⟨he, hp⟩
  | cons d pending ih =>
    obtain ⟨⟨hl, hj⟩, hrest⟩ := List.forall_mem_cons.1 hp
    rw [joinTighter]
    split
    · exact ih hrest (isExpression_join hl hj he)
    · exact ⟨he, hp⟩

/-- Whatever the precedences are, the tree of a chain of expressions is an expression. -/
theorem isExpression_climb {rest : List (Joint × Node)} (hp : IsShaped R xs depth pending)
    (he : e.IsExpression R xs depth)
    (hr : ∀ d ∈ rest, d.1.IsShaped R ∧ d.2.IsExpression R xs depth) :
    (climb pending e rest).IsExpression R xs depth := by
  induction rest generalizing pending e with
  | nil => exact isExpression_joinAll hp he
  | cons d rest ih =>
    obtain ⟨⟨hj, hd⟩, hr⟩ := List.forall_mem_cons.1 hr
    obtain ⟨hleft, hpending⟩ := isShaped_joinTighter d.1.precedence hp he
    rw [climb]
    exact ih (List.forall_mem_cons.2 ⟨⟨hleft, hj⟩, hpending⟩) hd hr

end Chain

end Expression

/-! ## Phrases -/

/-- How many expressions may stand inside each other in a phrase, if one has to go into the arguments
of at most `depth` calls in what it stands for. -/
def Symbol.room : Symbol → (depth : Nat) → Nat
  | .primary, depth | .rest, depth => depth
  | .expression, depth | .arguments, depth => depth + 1

/-- What phrases stand for is made up of expressions. -/
def Symbol.IsShaped (R : Rules) (xs : List Lexeme) (depth : Nat) : (s : Symbol) → s.Meaning → Prop
  | .primary, n | .expression, n => Node.IsExpression R xs depth n
  | .rest, ds => ∀ d ∈ ds, d.1.IsShaped R ∧ d.2.IsExpression R xs depth
  | .arguments, as => as ≠ [] ∧ ∀ a ∈ as, a.IsExpression R xs depth

/-- Lexemes that have been scanned: each of `ts` is one of `xs`, all of which can be written. -/
structure ScannedFrom (xs : List Lexeme) (ts : List Token) : Prop where
  mem : ∀ t ∈ ts, t.lexeme ∈ xs
  written : ∀ x ∈ xs, x.IsWritten

theorem ScannedFrom.mono {ts us : List Token} (h : ScannedFrom xs us) (hs : ts ⊆ us) :
    ScannedFrom xs ts :=
  ⟨fun t ht => h.mem t (hs ht), h.written⟩

theorem ScannedFrom.isName {ts : List Token} {x : String} {l : Location} (h : ScannedFrom xs ts)
    (hx : ⟨.identifier x, l⟩ ∈ ts) : IsName x := by
  have hw := h.written _ (h.mem _ hx)
  cases hw with
  | identifier hn => exact hn

namespace Phrase

/-- An expression takes up a level of its own. -/
theorem nesting_expression_pos (e : Phrase .expression) : 0 < e.nesting := by
  cases e
  exact Nat.succ_pos _

/-- There is an argument. -/
theorem nesting_arguments_pos (as : Phrase .arguments) : 0 < as.nesting := by
  cases as with
  | argument e => exact e.nesting_expression_pos
  | arguments e l as => exact Nat.lt_of_lt_of_le e.nesting_expression_pos (Nat.le_max_left _ _)

/-- A phrase that fits the rules stands for expressions. -/
theorem isShaped {s : Symbol} (p : Phrase s) {depth : Nat} (ht : ScannedFrom xs p.tokens)
    (hf : p.Fits R (s.room depth)) : s.IsShaped R xs depth (p.meaning R) := by
  induction p generalizing depth with
  | name x l => exact .reference (ht.isName List.mem_cons_self)
  | number text l =>
    refine .number (ht.mem _ List.mem_cons_self) ?_
    intro hs
    simpa [Rules.acceptsNumber, hs] using fits_number.1 hf
  | group l e l' he =>
    -- the parentheses take up a level, and a call with arguments less fits into it
    exact he (ht.mono (by simp)) ((fits_group.1 hf).mono (Nat.le_succ depth))
  | emptyCall f l l' l'' => exact .emptyCall (ht.isName List.mem_cons_self)
  | call f l l' as l'' has =>
    have hfits : as.Fits R depth := fits_call.1 hf
    obtain ⟨m, rfl⟩ : ∃ m, depth = m + 1 := by
      have := Nat.lt_of_lt_of_le as.nesting_arguments_pos hfits.nesting
      exact ⟨depth - 1, by omega⟩
    have hsub : as.tokens ⊆ (call f l l' as l'').tokens := by
      intro t hmem
      simp [hmem]
    obtain ⟨hne, hargs⟩ := has (ht.mono hsub) hfits
    exact .call (ht.isName List.mem_cons_self) hne hargs
  | nothing => exact List.forall_mem_nil _
  | operator c l p ps hp hps =>
    obtain ⟨hc, hfp, hfps⟩ := fits_operator.1 hf
    exact List.forall_mem_cons.2
      ⟨⟨⟨c, rfl, hc⟩, hp (ht.mono (by simp)) hfp⟩, hps (ht.mono (by simp)) hfps⟩
  | chain p ps hp hps =>
    obtain ⟨hfp, hfps⟩ := fits_chain.1 hf
    exact Expression.Chain.isExpression_climb (List.forall_mem_nil _)
      (hp (ht.mono (by simp)) hfp) (hps (ht.mono (by simp)) hfps)
  | argument e he =>
    refine ⟨List.cons_ne_nil _ _, ?_⟩
    intro a ha
    obtain rfl := List.mem_singleton.1 ha
    exact he ht (fits_argument.1 hf)
  | arguments e l as he has =>
    obtain ⟨hfe, hfas⟩ := fits_arguments.1 hf
    refine ⟨List.cons_ne_nil _ _, List.forall_mem_cons.2 ⟨?_, ?_⟩⟩
    · exact he (ht.mono (by simp)) hfe
    · exact (has (ht.mono (by simp)) hfas).2

end Phrase

/-! ## Forms -/

theorem Signature.isNamed {g : Signature} (hg : g.Fits) (ht : ScannedFrom xs g.tokens) :
    g.prototype.IsNamed where
  name := ht.isName List.mem_cons_self
  parameters := by
    intro x hx
    obtain ⟨y, hy, rfl⟩ := List.mem_map.1 hx
    refine ht.isName (l := y.2) ?_
    have : (⟨.identifier y.1, y.2⟩ : Token) ∈ parameterTokens g.parameters :=
      List.mem_map_of_mem hy
    simp [tokens, this]
  nodup := hg

/-- What a form gives, read from tokens that have been scanned. -/
theorem Form.gives {F : Form} {kind : FormKind} {n : Node} (hf : F.Fits R)
    (hr : F.result? R = some ⟨kind, .ok n⟩) (ht : ScannedFrom xs F.tokens) :
    kind.Gives R xs n := by
  have shaped {e : Phrase .expression} (he : e.Fits R R.maxDepth) (hte : ScannedFrom xs e.tokens) :
      (e.meaning R).IsExpression R xs (R.maxDepth - 1) := by
    have hd : 0 < R.maxDepth := Nat.lt_of_lt_of_le e.nesting_expression_pos he.nesting
    have hroom : Symbol.room .expression (R.maxDepth - 1) = R.maxDepth := Nat.sub_add_cancel hd
    exact e.isShaped hte (by rwa [hroom])
  cases F with
  | semicolon l => cases hr
  | expression e =>
    obtain ⟨rfl, rfl⟩ := by simpa [result?] using hr
    exact .expression (shaped hf ht)
  | external l g =>
    obtain ⟨rfl, rfl⟩ := by simpa [result?] using hr
    exact .external (g.isNamed hf (ht.mono (by simp [tokens])))
  | definition l g body =>
    obtain ⟨rfl, rfl⟩ := by simpa [result?] using hr
    refine .definition (g.isNamed hf.1 (ht.mono (by simp [tokens]))) ?_
    exact shaped hf.2 (ht.mono (by simp [tokens]))

/-! ## Runs -/

namespace Session

/-- The trees of a run under some rules have the shape that their kind asks for, and no step of the
run changes the rules. -/
structure IsShaped (s : Session) (R : Rules) : Prop where
  rules : ∀ n, ((fun s => s.step.2)^[n] s).parser.rules = R
  trees : ∀ r ∈ s.results, ∀ n, r.outcome = .ok n →
    r.kind.Gives R (s.tokens.map (·.token.lexeme)) n

theorem iterate_step_rules (s : Session) (n : Nat) :
    ((fun s => s.step.2)^[n] s).parser.rules = s.parser.rules := by
  induction n generalizing s with
  | zero => rfl
  | succ n ih =>
    rw [Function.iterate_succ_apply, ih]
    exact s.step_keeps.1

theorem start_isShaped (R : Rules) (maxErrors : Int) (file : String)
    (answers : List (Option Char)) (remembersEnd : Bool) :
    (start R maxErrors file (.ofAnswers answers remembersEnd)).IsShaped R := by
  have ho := Upcoming.ofAnswers_ordered file answers remembersEnd
  have hwritten : ∀ t ∈ (Upcoming.ofSource file (.ofAnswers answers remembersEnd)).tokens,
      t.token.lexeme.IsWritten := fun _ => Scanner.mem_isWritten
  generalize Source.ofAnswers answers remembersEnd = source at ho hwritten ⊢
  refine ⟨iterate_step_rules _, ?_⟩
  rintro ⟨kind, outcome⟩ hr n rfl
  rw [results, start_results ho] at hr
  obtain ⟨τ, hτ, hres⟩ := List.mem_filterMap.1 hr
  rw [start_turns] at hτ
  -- the tree is that of a form whose tokens are some of the input
  have hw := (primed_walks R maxErrors ho).walk
  obtain ⟨F, hF, hFr, htokens, hsub⟩ := hw.exists_form rfl hτ hres
  obtain ⟨-, hrules, -⟩ := hw.exists_moves τ hτ
  rw [show τ.before.rules = R from hrules] at hF hFr
  refine Form.gives hF hFr ⟨?_, ?_⟩
  · intro t ht
    rw [← htokens] at ht
    obtain ⟨a, ha, rfl⟩ := List.mem_map.1 ht
    exact List.mem_map_of_mem (hsub.subset ha)
  · intro x hx
    obtain ⟨t, ht, rfl⟩ := List.mem_map.1 hx
    exact hwritten t ht

/-- Every tree that a run under any options hands out has its shape. The operator table is that of
the options; it is frozen, and it stays as it is. -/
theorem ofOptions_isShaped {o : Options} {file : String} {answers : List (Option Char)}
    {remembersEnd : Bool} {s : Session}
    (h : ofOptions o file (.ofAnswers answers remembersEnd) = .ok s) :
    1 ≤ o.maxDepth ∧ s.IsShaped ⟨o.table.freeze, o.maxDepth.toNat, o.strictNumbers⟩ := by
  obtain ⟨R, hR, rfl⟩ := Except.map_eq_ok_iff.1 h
  obtain ⟨hd, rfl⟩ := Options.rules_of_ok hR
  exact ⟨hd, start_isShaped _ o.maxErrors file answers remembersEnd⟩

/-- A run under the standard options that hands out a definition and a call. -/
theorem isShaped_behind_failure :
    ∃ s, ofOptions .standard "p" (.ofAnswers ("def f(x) ) def g(x) x*g(2); g()".toList.map some)
        true) = .ok s ∧
      1 ≤ Options.standard.maxDepth ∧
        s.IsShaped ⟨PrecedenceTable.standard.freeze, 256, true⟩ := by
  have h : ofOptions .standard "p"
      (.ofAnswers ("def f(x) ) def g(x) x*g(2); g()".toList.map some) true) =
      .ok (start ⟨PrecedenceTable.standard.freeze, 256, true⟩ Collector.standardMaxErrors "p"
        (.ofAnswers ("def f(x) ) def g(x) x*g(2); g()".toList.map some) true)) := rfl
  exact ⟨_, h, ofOptions_isShaped h⟩

end Session

end OperatorGrammar
