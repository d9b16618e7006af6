import OperatorGrammar.Session

/-!
The grammar, said through its derivations. A phrase is a derivation of a symbol; it has one
constructor for each production and holds what the production leaves open: names, texts, operator
characters and the places of the tokens. A phrase has tokens, and it stands for nodes. What a
production does not say is said beside it: which characters are operators, which texts are
numbers, and how deep expressions nest.
-/

namespace OperatorGrammar

/-- The symbols of the grammar below a form. -/
inductive Symbol where
  | primary
  /-- The rest of a chain: operators, each with the primary behind it. -/
  | rest
  | expression
  /-- The arguments of a call, of which there is at least one. -/
  | arguments
deriving DecidableEq

/-- What a phrase of a symbol stands for. -/
abbrev Symbol.Meaning : Symbol → Type
  | primary | expression => Node
  | rest => List (Expression.Joint × Node)
  | arguments => List Node

inductive Phrase : Symbol → Type where
  /-- `primary ::= IDENTIFIER` -/
  | name (x : String) (l : Location) : Phrase .primary
  /-- `primary ::= NUMBER` -/
  | number (text : String) (l : Location) : Phrase .primary
  /-- `primary ::= '(' expression ')'` -/
  | group (opening : Location) (e : Phrase .expression) (closing : Location) : Phrase .primary
  /-- `primary ::= IDENTIFIER '(' ')'` -/
  | emptyCall (f : String) (l opening closing : Location) : Phrase .primary
  /-- `primary ::= IDENTIFIER '(' arguments ')'` -/
  | call (f : String) (l opening : Location) (as : Phrase .arguments) (closing : Location) :
    Phrase .primary
  /-- `rest ::=` -/
  | nothing : Phrase .rest
  /-- `rest ::= BINOP primary rest` -/
  | operator (c : Char) (l : Location) (p : Phrase .primary) (ps : Phrase .rest) : Phrase .rest
  /-- `expression ::= primary rest` -/
  | chain (p : Phrase .primary) (ps : Phrase .rest) : Phrase .expression
  /-- `arguments ::= expression` -/
  | argument (e : Phrase .expression) : Phrase .arguments
  /-- `arguments ::= expression ',' arguments` -/
  | arguments (e : Phrase .expression) (comma : Location) (as : Phrase .arguments) :
    Phrase .arguments

namespace Phrase

/-! ## What a phrase is written with -/

@[simp] def tokens : {s : Symbol} → Phrase s → List Token
  | _, name x l => [⟨.identifier x, l⟩]
  | _, number text l => [⟨.number text, l⟩]
  | _, group l e l' => ⟨.char '(', l⟩ :: (e.tokens ++ [⟨.char ')', l'⟩])
  | _, emptyCall f l l' l'' => [⟨.identifier f, l⟩, ⟨.char '(', l'⟩, ⟨.char ')', l''⟩]
  | _, call f l l' as l'' =>
    ⟨.identifier f, l⟩ :: ⟨.char '(', l'⟩ :: (as.tokens ++ [⟨.char ')', l''⟩])
  | _, nothing => []
  | _, operator c l p ps => ⟨.char c, l⟩ :: (p.tokens ++ ps.tokens)
  | _, chain p ps => p.tokens ++ ps.tokens
  | _, argument e => e.tokens
  | _, arguments e l as => e.tokens ++ ⟨.char ',', l⟩ :: as.tokens

/-- The operator characters of a phrase. -/
@[simp] def operators : {s : Symbol} → Phrase s → List Char
  | _, name .. | _, number .. | _, emptyCall .. | _, nothing => []
  | _, group _ e _ => e.operators
  | _, call _ _ _ as _ => as.operators
  | _, operator c _ p ps => c :: (p.operators ++ ps.operators)
  | _, chain p ps => p.operators ++ ps.operators
  | _, argument e => e.operators
  | _, arguments e _ as => e.operators ++ as.operators

/-- The number texts of a phrase. -/
@[simp] def numbers : {s : Symbol} → Phrase s → List String
  | _, name .. | _, emptyCall .. | _, nothing => []
  | _, number text _ => [text]
  | _, group _ e _ => e.numbers
  | _, call _ _ _ as _ => as.numbers
  | _, operator _ _ p ps => p.numbers ++ ps.numbers
  | _, chain p ps => p.numbers ++ ps.numbers
  | _, argument e => e.numbers
  | _, arguments e _ as => e.numbers ++ as.numbers

/-- How many expressions of a phrase stand inside each other, at most. An expression that holds no
other one counts one; each pair of parentheses around an expression, and each list of arguments
around it, adds one. -/
@[simp] def nesting : {s : Symbol} → Phrase s → Nat
  | _, name .. | _, number .. | _, emptyCall .. | _, nothing => 0
  | _, group _ e _ => e.nesting
  | _, call _ _ _ as _ => as.nesting
  | _, operator _ _ p ps => max p.nesting ps.nesting
  | _, chain p ps => max p.nesting ps.nesting + 1
  | _, argument e => e.nesting
  | _, arguments e _ as => max e.nesting as.nesting

/-- What the rules ask of a phrase, of whose expressions `depth` may stand inside each other. -/
structure Fits (R : Rules) (depth : Nat) {s : Symbol} (p : Phrase s) : Prop where
  operators : ∀ c ∈ p.operators, 0 < R.table.precedence c
  numbers : ∀ text ∈ p.numbers, R.acceptsNumber text = true
  nesting : p.nesting ≤ depth

/-- What a phrase stands for. Parentheses leave no trace. -/
@[simp] def meaning (R : Rules) : {s : Symbol} → Phrase s → s.Meaning
  | _, name x l => .reference (.text x) (some l)
  | _, number text l => .number (.number (Literal.value text)) (some l)
  | _, group _ e _ => e.meaning R
  | _, emptyCall f l _ _ => .call (.text f) [] (some l)
  | _, call f l _ as _ => .call (.text f) (as.meaning R) (some l)
  | _, nothing => []
  | _, operator c l p ps =>
    (⟨c.toString, R.table.precedence c, l⟩, p.meaning R) :: ps.meaning R
  | _, chain p ps => Expression.Chain.climb [] (p.meaning R) (ps.meaning R)
  | _, argument e => [e.meaning R]
  | _, arguments e _ as => e.meaning R :: as.meaning R

/-! ## What the rules ask, production by production -/

variable {R : Rules} {n : Nat}

theorem fits_iff {s : Symbol} {p : Phrase s} :
    p.Fits R n ↔ (∀ c ∈ p.operators, 0 < R.table.precedence c) ∧
      (∀ text ∈ p.numbers, R.acceptsNumber text = true) ∧ p.nesting ≤ n :=
  ⟨fun h => ⟨h.operators, h.numbers, h.nesting⟩, fun h => ⟨h.1, h.2.1, h.2.2⟩⟩

theorem Fits.mono {s : Symbol} {p : Phrase s} {m : Nat} (h : p.Fits R m) (hmn : m ≤ n) :
    p.Fits R n :=
  ⟨h.operators, h.numbers, Nat.le_trans h.nesting hmn⟩

@[simp] theorem fits_name (x : String) (l : Location) : (name x l).Fits R n := by
  simp [fits_iff]

@[simp] theorem fits_number {text : String} {l : Location} :
    (number text l).Fits R n ↔ R.acceptsNumber text = true := by
  simp [fits_iff]

@[simp] theorem fits_group {l l' : Location} {e : Phrase .expression} :
    (group l e l').Fits R n ↔ e.Fits R n := by
  simp [fits_iff]

@[simp] theorem fits_emptyCall (f : String) (l l' l'' : Location) :
    (emptyCall f l l' l'').Fits R n := by
  simp [fits_iff]

@[simp] theorem fits_call {f : String} {l l' l'' : Location} {as : Phrase .arguments} :
    (call f l l' as l'').Fits R n ↔ as.Fits R n := by
  simp [fits_iff]

@[simp] theorem fits_nothing : nothing.Fits R n := by
  simp [fits_iff]

@[simp] theorem fits_operator {c : Char} {l : Location} {p : Phrase .primary}
    {ps : Phrase .rest} :
    (operator c l p ps).Fits R n ↔ 0 < R.table.precedence c ∧ p.Fits R n ∧ ps.Fits R n := by
  simp only [fits_iff, operators, numbers, nesting, List.forall_mem_cons, List.forall_mem_append,
    Nat.max_le]
  grind

@[simp] theorem fits_chain {p : Phrase .primary} {ps : Phrase .rest} :
    (chain p ps).Fits R (n + 1) ↔ p.Fits R n ∧ ps.Fits R n := by
  simp only [fits_iff, operators, numbers, nesting, List.forall_mem_append, Nat.add_le_add_iff_right,
    Nat.max_le]
  grind

@[simp] theorem fits_argument {e : Phrase .expression} :
    (argument e).Fits R n ↔ e.Fits R n := by
  simp [fits_iff]

@[simp] theorem fits_arguments {e : Phrase .expression} {l : Location} {as : Phrase .arguments} :
    (arguments e l as).Fits R n ↔ e.Fits R n ∧ as.Fits R n := by
  simp only [fits_iff, operators, numbers, nesting, List.forall_mem_append, Nat.max_le]
  grind

/-- An expression takes up a level of its own. -/
theorem not_fits_zero (e : Phrase .expression) : ¬ e.Fits R 0 := by
  intro h
  cases e with
  | chain p ps => exact absurd h.nesting (by simp)

theorem tokens_ne_nil (p : Phrase .primary) : p.tokens ≠ [] := by
  cases p <;> simp

end Phrase

end OperatorGrammar
