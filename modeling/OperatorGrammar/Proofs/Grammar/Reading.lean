import OperatorGrammar.Proofs.Grammar

/-!
Reading takes in every phrase that the rules allow. What is left of a phrase in the reader is what
it stands for: behind a primary an operand, behind an expression a chain that closes to its tree.
Main statement: `Phrase.isRead`.
-/

namespace OperatorGrammar

namespace PrecedenceTable

theorem precedence_pos_or (t : PrecedenceTable) (c : Char) :
    0 < t.precedence c ∨ t.precedence c = noPrecedence := by
  unfold precedence
  split
  · split
    · exact .inl ‹_›
    · exact .inr rfl
  · exact .inr rfl

theorem precedence_of_not_isUsable (t : PrecedenceTable) {c : Char} (h : isUsable c = false) :
    t.precedence c = noPrecedence := by
  rcases t.precedence_pos_or c with hp | hn
  · exact absurd (isUsable_of_precedence_pos hp) (by simp [h])
  · exact hn

end PrecedenceTable

namespace Rules

theorem precedence_pos_or (R : Rules) (l : Lexeme) :
    0 < R.precedence l ∨ R.precedence l = PrecedenceTable.noPrecedence := by
  cases l with
  | char c => exact R.table.precedence_pos_or c
  | _ => exact .inr rfl

/-- A precedence that is not negative is positive. -/
theorem precedence_nonneg_iff (R : Rules) (l : Lexeme) :
    0 ≤ R.precedence l ↔ 0 < R.precedence l := by
  rcases R.precedence_pos_or l with h | h
  · exact ⟨fun _ => h, Int.le_of_lt⟩
  · rw [h]
    decide

theorem precedence_of_not_isUsable (R : Rules) {c : Char}
    (h : PrecedenceTable.isUsable c = false) : ¬ 0 < R.precedence (.char c) := by
  rw [precedence, R.table.precedence_of_not_isUsable h]
  decide

/-- Only characters have precedences. -/
theorem exists_char_of_precedence_pos (R : Rules) {l : Lexeme} (h : 0 < R.precedence l) :
    ∃ c, l = .char c := by
  cases l with
  | char c => exact ⟨c, rfl⟩
  | _ => simp [precedence, PrecedenceTable.noPrecedence] at h

end Rules

namespace Expression

/-- The operand that is there when a token behind it is looked at. -/
def Progress.operand? : Progress → Option Node
  | .named x l => some (.reference x (some l))
  | .complete e => some e
  | .entering | .operand | .arguments .. => none

namespace Reader

variable {R : Rules} {r r' : Reader} {e : Node} {t : Token} {ts us : List Token}

/-- The reader behind tokens; there is none if one of them is not taken in. -/
def readAll? (R : Rules) (r : Reader) (ts : List Token) : Option Reader :=
  ts.foldlM (fun r t => r.read? R t) r

@[simp] theorem readAll?_nil : r.readAll? R [] = some r := rfl

theorem readAll?_cons : r.readAll? R (t :: ts) = (r.read? R t).bind (·.readAll? R ts) := rfl

theorem readAll?_append :
    r.readAll? R (ts ++ us) = (r.readAll? R ts).bind (·.readAll? R us) :=
  List.foldlM_append

theorem readAll?_append_of_eq (h : r.readAll? R ts = some r') (us : List Token) :
    r.readAll? R (ts ++ us) = r'.readAll? R us := by
  rw [readAll?_append, h, Option.bind_some]

theorem readAll?_singleton : r.readAll? R [t] = r.read? R t := by
  simp [readAll?_cons]

/-! ## One token -/

/-- Behind an operand only the opening parenthesis makes a difference between a name and other
operands. -/
theorem read?_of_operand (h : r.progress.operand? = some e) (ht : t.isChar '(' = false) :
    r.read? R t = r.readOn? R e t := by
  unfold read?
  cases hp : r.progress with
  | named x l =>
    obtain rfl : .reference x (some l) = e := by simpa [hp, Progress.operand?] using h
    simp [ht]
  | complete d =>
    obtain rfl : d = e := by simpa [hp, Progress.operand?] using h
    rfl
  | _ => simp [hp, Progress.operand?] at h

theorem takesOperator_of_zero (h : r.leastPrecedence = some 0) (l : Lexeme) :
    r.takesOperator R l = decide (0 < R.precedence l) := by
  simp only [takesOperator, h, R.precedence_nonneg_iff]

theorem leastPrecedence_of_levels {level : Level} {levels : List Level}
    (h : r.levels = level :: levels) : r.leastPrecedence = some 0 := by
  simp [leastPrecedence, h]

theorem leastPrecedence_of_expression (h : r.goal = .expression) : r.leastPrecedence = some 0 := by
  rw [leastPrecedence, h]
  cases r.levels <;> rfl

theorem takesOperator_of_not_pos {l : Lexeme} (h : r.leastPrecedence = some 0)
    (hl : ¬ 0 < R.precedence l) : r.takesOperator R l = false := by
  rw [takesOperator_of_zero h]
  exact decide_eq_false hl

/-- No operator is taken that cannot be one. -/
theorem takesOperator_eq_false {c : Char} (h : r.leastPrecedence = some 0)
    (hc : PrecedenceTable.isUsable c = false) : r.takesOperator R (.char c) = false :=
  takesOperator_of_not_pos h (R.precedence_of_not_isUsable hc)

theorem readOn?_operator {c : Char} {l : Location} (h : r.leastPrecedence = some 0)
    (hc : 0 < R.table.precedence c) :
    r.readOn? R e ⟨.char c, l⟩ =
      some { r with
        chain := (e, ⟨c.toString, R.table.precedence c, l⟩) :: r.chain, progress := .operand } := by
  have ht : r.takesOperator R (.char c) = true := by
    rw [takesOperator_of_zero h]
    exact decide_eq_true hc
  simp only [readOn?, ht, if_true]
  rfl

theorem readOn?_closeGroup {l : Location} {outer : Chain} {levels : List Level}
    (h : r.levels = ⟨outer, .group⟩ :: levels) :
    r.readOn? R e ⟨.char ')', l⟩ =
      some { r with
        levels := levels, chain := outer, opened := r.opened - 1,
        progress := .complete (r.chain.close e) } := by
  have ht : r.takesOperator R (.char ')') = false :=
    takesOperator_eq_false (leastPrecedence_of_levels h) (by decide)
  simp [readOn?, ht, h, Token.isChar]

theorem readOn?_closeCall {l m : Location} {f : Value} {as : List Node} {outer : Chain}
    {levels : List Level} (h : r.levels = ⟨outer, .call f l as⟩ :: levels) :
    r.readOn? R e ⟨.char ')', m⟩ =
      some { r with
        levels := levels, chain := outer, opened := r.opened - 1,
        progress := .complete (.call f (r.chain.close e :: as).reverse (some l)) } := by
  have ht : r.takesOperator R (.char ')') = false :=
    takesOperator_eq_false (leastPrecedence_of_levels h) (by decide)
  simp [readOn?, ht, h, Token.isChar]

theorem readOn?_comma {l m : Location} {f : Value} {as : List Node} {outer : Chain}
    {levels : List Level} (h : r.levels = ⟨outer, .call f l as⟩ :: levels) :
    r.readOn? R e ⟨.char ',', m⟩ =
      some { r with
        levels := ⟨outer, .call f l (r.chain.close e :: as)⟩ :: levels, chain := [],
        opened := r.opened - 1, progress := .entering } := by
  have ht : r.takesOperator R (.char ',') = false :=
    takesOperator_eq_false (leastPrecedence_of_levels h) (by decide)
  simp [readOn?, ht, h, Token.isChar, push]

theorem read?_entering (h : r.progress = .entering) (ho : r.opened < R.maxDepth) :
    r.read? R t = { r with opened := r.opened + 1, progress := .operand }.read? R t := by
  simp [read?, h, enter?, ho]

/-- Reading an expression starts as reading its first operand does. -/
theorem readAll?_entering (h : r.progress = .entering) (ho : r.opened < R.maxDepth)
    (ht : ts ≠ []) :
    r.readAll? R ts =
      { r with opened := r.opened + 1, progress := .operand }.readAll? R ts := by
  cases ts with
  | nil => exact absurd rfl ht
  | cons t ts => rw [readAll?_cons, readAll?_cons, read?_entering h ho]

/-- Behind the opening parenthesis of a call, what can be read as a first argument is read as
one. -/
theorem readAll?_arguments {f : Value} {l : Location} (h : r.progress = .arguments f l)
    (ht : ts ≠ []) (hr : (r.push (.call f l [])).readAll? R ts = some r') :
    r.readAll? R ts = some r' := by
  cases ts with
  | nil => exact absurd rfl ht
  | cons t ts =>
    -- a call without arguments is told by its first token, which opens no argument
    have hn : t.isChar ')' = false := by
      apply Bool.eq_false_iff.2
      intro hc
      have hl : t.lexeme = .char ')' := by simpa [Token.isChar] using hc
      have : (r.push (.call f l [])).read? R t = none := by
        simp only [read?, push]
        cases enter? R _ with
        | none => rfl
        | some q => simp [readOperand?, hl]
      simp [readAll?_cons, this] at hr
    rw [readAll?_cons] at hr ⊢
    rw [← hr]
    congr 1
    simp [read?, h, hn, push]

end Reader

/-- An operand with the operator behind it, put in front of a chain in reading order. -/
def Chain.front (chain : Node × List (Joint × Node)) (d : Node × Joint) :
    Node × List (Joint × Node) := (d.1, (d.2, chain.1) :: chain.2)

theorem Chain.inOrder_eq (c : Chain) (last : Node) : c.inOrder last = c.foldl front (last, []) := rfl

theorem Chain.inOrder_cons (c : Chain) (e next : Node) (j : Joint) :
    Chain.inOrder ((e, j) :: c) next =
      ((Chain.inOrder c e).1, (Chain.inOrder c e).2 ++ [(j, next)]) := by
  -- the fold has to start with any rest, since each operand goes in front of what is there
  suffices h : ∀ (c : Chain) (f : Node) (rest : List (Joint × Node)),
      c.foldl front (f, rest) = ((Chain.inOrder c f).1, (Chain.inOrder c f).2 ++ rest) by
    exact h c e [(j, next)]
  intro c
  induction c with
  | nil => intro f rest; rfl
  | cons d c ih =>
    intro f rest
    obtain ⟨g, i⟩ := d
    rw [Chain.inOrder_eq, List.foldl_cons, List.foldl_cons, front, front, ih g ((i, f) :: rest),
      ih g [(i, f)]]
    simp

end Expression

namespace Phrase

open Expression

variable {R : Rules}

/-- How far the expression around a primary has got behind it. -/
def progress (R : Rules) : Phrase .primary → Progress
  | name x l => .named (.text x) l
  | p => .complete (p.meaning R)

theorem progress_operand? (p : Phrase .primary) :
    (p.progress R).operand? = some (p.meaning R) := by
  cases p <;> rfl

/-- What reading makes of a phrase, for every reader that may start with it: behind a primary the
operand is complete; the rest of a chain lengthens the chain; an expression is a chain that closes
to its tree; arguments with the parenthesis behind them complete the call. -/
def IsRead (R : Rules) : (s : Symbol) → Phrase s → Prop
  | .primary, p => ∀ r : Reader, r.progress = .operand → p.Fits R (R.maxDepth - r.opened) →
      r.readAll? R p.tokens = some { r with progress := p.progress R }
  | .rest, ps => ∀ (r : Reader) (e : Node), r.progress.operand? = some e →
      r.leastPrecedence = some 0 → ps.Fits R (R.maxDepth - r.opened) →
      ∃ chain progress last, r.readAll? R ps.tokens =
          some { r with chain := chain, progress := progress } ∧
        progress.operand? = some last ∧
        chain.inOrder last = ((r.chain.inOrder e).1, (r.chain.inOrder e).2 ++ ps.meaning R)
  | .expression, e => ∀ r : Reader, r.progress = .entering → r.chain = [] →
      r.leastPrecedence = some 0 → e.Fits R (R.maxDepth - r.opened) →
      ∃ chain progress last, r.readAll? R e.tokens =
          some { r with opened := r.opened + 1, chain := chain, progress := progress } ∧
        progress.operand? = some last ∧ chain.close last = e.meaning R
  | .arguments, as => ∀ (r : Reader) (outer : Chain) (levels : List Level) (f : Value)
      (l m : Location) (before : List Node), r.levels = ⟨outer, .call f l before⟩ :: levels →
      r.progress = .entering → r.chain = [] → as.Fits R (R.maxDepth - r.opened) →
      r.readAll? R (as.tokens ++ [⟨.char ')', m⟩]) = some { r with
        levels := levels, chain := outer,
        progress := .complete (.call f (before.reverse ++ as.meaning R) (some l)) }

/-! ## Production by production -/

theorem isRead_group {l l' : Location} {e : Phrase .expression} (he : IsRead R .expression e) :
    IsRead R .primary (group l e l') := by
  intro r hp hf
  obtain ⟨chain, progress, last, hr, ho, hc⟩ := he (r.push .group) rfl rfl
    (Reader.leastPrecedence_of_levels rfl) (fits_group.1 hf)
  have h1 : r.read? R ⟨.char '(', l⟩ = some (r.push .group) := by
    simp [Reader.read?, hp, Reader.readOperand?]
  have h2 := Reader.readAll?_append_of_eq hr [⟨.char ')', l'⟩]
  simp only [tokens]
  rw [Reader.readAll?_cons, h1, Option.bind_some, h2, Reader.readAll?_singleton,
    Reader.read?_of_operand ho rfl, Reader.readOn?_closeGroup rfl, hc]
  rfl

theorem isRead_call {f : String} {l l' l'' : Location} {as : Phrase .arguments}
    (has : IsRead R .arguments as) : IsRead R .primary (call f l l' as l'') := by
  intro r hp hf
  have h1 : r.read? R ⟨.identifier f, l⟩ = some { r with progress := .named (.text f) l } := by
    simp [Reader.read?, hp, Reader.readOperand?]
  have h2 : { r with progress := .named (.text f) l }.read? R ⟨.char '(', l'⟩ =
      some { r with progress := .arguments (.text f) l } := by
    simp [Reader.read?, Token.isChar]
  have h3 := has ({ r with progress := .arguments (.text f) l }.push (.call (.text f) l []))
    r.chain r.levels (.text f) l l'' [] rfl rfl rfl (fits_call.1 hf)
  simp only [tokens]
  rw [Reader.readAll?_cons, h1, Option.bind_some, Reader.readAll?_cons, h2, Option.bind_some,
    Reader.readAll?_arguments rfl (by simp) h3]
  rfl

theorem isRead_operator {c : Char} {l : Location} {p : Phrase .primary} {ps : Phrase .rest}
    (hp : IsRead R .primary p) (hps : IsRead R .rest ps) : IsRead R .rest (operator c l p ps) := by
  intro r e he hl hf
  obtain ⟨hc, hfp, hfps⟩ := fits_operator.1 hf
  have hn : (⟨.char c, l⟩ : Token).isChar '(' = false := by
    have hu := PrecedenceTable.isUsable_of_precedence_pos hc
    have : c ≠ '(' := by
      rintro rfl
      exact absurd hu (by decide)
    simpa [Token.isChar] using this
  -- the operator goes onto the chain, and its right operand is what the rest goes on from
  have h1 := (Reader.read?_of_operand he hn).trans (Reader.readOn?_operator hl hc)
  have h2 := hp { r with
    chain := (e, ⟨c.toString, R.table.precedence c, l⟩) :: r.chain, progress := .operand } rfl hfp
  obtain ⟨chain, progress, last, h3, ho, hi⟩ := hps { r with
    chain := (e, ⟨c.toString, R.table.precedence c, l⟩) :: r.chain, progress := p.progress R }
    (p.meaning R) p.progress_operand? hl hfps
  refine ⟨chain, progress, last, ?_, ho, ?_⟩
  · simp only [tokens]
    rw [Reader.readAll?_cons, h1, Option.bind_some, Reader.readAll?_append_of_eq h2, h3]
  · rw [hi, Chain.inOrder_cons]
    simp

theorem isRead_chain {p : Phrase .primary} {ps : Phrase .rest} (hp : IsRead R .primary p)
    (hps : IsRead R .rest ps) : IsRead R .expression (chain p ps) := by
  intro r hr hc hl hf
  obtain ⟨m, hm⟩ : ∃ m, R.maxDepth - r.opened = m + 1 := by
    cases hd : R.maxDepth - r.opened with
    | zero => exact absurd (hd ▸ hf) (not_fits_zero _)
    | succ m => exact ⟨m, rfl⟩
  rw [hm, fits_chain] at hf
  have hin : R.maxDepth - (r.opened + 1) = m := by omega
  have ho : r.opened < R.maxDepth := by omega
  have h1 := Reader.readAll?_entering hr ho
    (show (chain p ps).tokens ≠ [] by simp [p.tokens_ne_nil])
  have h2 := hp { r with opened := r.opened + 1, progress := .operand } rfl
    (by simpa only [hin] using hf.1)
  obtain ⟨c, progress, last, h3, ho, hi⟩ := hps
    { r with opened := r.opened + 1, progress := p.progress R } (p.meaning R) p.progress_operand?
    hl (by simpa only [hin] using hf.2)
  refine ⟨c, progress, last, ?_, ho, ?_⟩
  · rw [h1]
    simp only [tokens]
    rw [Reader.readAll?_append_of_eq h2, h3]
  · simp only [Chain.close, hi, hc]
    rfl

theorem isRead_argument {e : Phrase .expression} (he : IsRead R .expression e) :
    IsRead R .arguments (argument e) := by
  intro r outer levels f l m before hl hr hc hf
  obtain ⟨chain, progress, last, h1, ho, hm⟩ := he r hr hc
    (Reader.leastPrecedence_of_levels hl) (fits_argument.1 hf)
  simp only [tokens]
  rw [Reader.readAll?_append_of_eq h1, Reader.readAll?_singleton,
    Reader.read?_of_operand ho rfl, Reader.readOn?_closeCall (by exact hl), hm]
  simp

theorem isRead_arguments {e : Phrase .expression} {c : Location} {as : Phrase .arguments}
    (he : IsRead R .expression e) (has : IsRead R .arguments as) :
    IsRead R .arguments (arguments e c as) := by
  intro r outer levels f l m before hl hr hc hf
  obtain ⟨hfe, hfas⟩ := fits_arguments.1 hf
  obtain ⟨chain, progress, last, h1, ho, hm⟩ := he r hr hc
    (Reader.leastPrecedence_of_levels hl) hfe
  have h2 := has { r with
    levels := ⟨outer, .call f l (e.meaning R :: before)⟩ :: levels, chain := [],
    progress := .entering } outer levels f l m (e.meaning R :: before) rfl rfl rfl hfas
  simp only [tokens, List.append_assoc, List.cons_append]
  rw [Reader.readAll?_append_of_eq h1, Reader.readAll?_cons,
    Reader.read?_of_operand ho rfl, Reader.readOn?_comma (by exact hl), hm, Option.bind_some]
  simpa using h2

/-- Reading takes in every phrase that fits. -/
theorem isRead {s : Symbol} (p : Phrase s) : IsRead R s p := by
  induction p with
  | name x l =>
    intro r hp _
    simp [Reader.readAll?_cons, Reader.read?, hp, Reader.readOperand?, progress]
  | number text l =>
    intro r hp hf
    have ha := fits_number.1 hf
    simp [Reader.readAll?_cons, Reader.read?, hp, Reader.readOperand?, progress, ha]
  | group l e l' he => exact isRead_group he
  | emptyCall f l l' l'' =>
    intro r hp _
    simp [Reader.readAll?_cons, Reader.read?, hp, Reader.readOperand?, Token.isChar,
      progress, meaning]
  | call f l l' as l'' has => exact isRead_call has
  | nothing =>
    intro r e he _ _
    exact ⟨r.chain, r.progress, e, rfl, he, by simp⟩
  | operator c l p ps hp hps => exact isRead_operator hp hps
  | chain p ps hp hps => exact isRead_chain hp hps
  | argument e he => exact isRead_argument he
  | arguments e c as he has => exact isRead_arguments he has

end Phrase

end OperatorGrammar
