import OperatorGrammar.Proofs.Grammar.Grouping
import OperatorGrammar.Proofs.Grammar.Placement
import OperatorGrammar.Proofs.Scanning.Layout

/-!
Expressions as they are written. A tree is written with parentheses around at least those operands
that would otherwise be taken apart, and possibly around more. What is written is a phrase of the
grammar, and the phrase stands for the tree. Main statement: `Written.Fits.isExpression`.
-/

namespace OperatorGrammar

/-- A tree with the parentheses that it is written with. -/
inductive Written where
  | number (text : String)
  | name (x : String)
  | binary (operator : Char) (left right : Written)
  | call (f : String) (arguments : List Written)
  | parenthesized (e : Written)

namespace Written

mutual

def lexemes : Written → List Lexeme
  | number text => [.number text]
  | name x => [.identifier x]
  | binary o left right => left.lexemes ++ .char o :: right.lexemes
  | call f as => .identifier f :: .char '(' :: (argumentLexemes as ++ [.char ')'])
  | parenthesized e => .char '(' :: (e.lexemes ++ [.char ')'])

/-- Arguments, with a comma between each two. -/
def argumentLexemes : List Written → List Lexeme
  | [] => []
  | [a] => a.lexemes
  | a :: b :: as => a.lexemes ++ .char ',' :: argumentLexemes (b :: as)

end

mutual

/-- The tree itself, without places. -/
def tree : Written → Node
  | number text => .number (.number (Literal.value text)) none
  | name x => .reference (.text x) none
  | binary o left right => .binary o.toString left.tree right.tree none
  | call f as => .call (.text f) (trees as) none
  | parenthesized e => e.tree

def trees : List Written → List Node
  | [] => []
  | a :: as => a.tree :: trees as

end

mutual

/-- How many parentheses and lists of arguments stand around a part, at most. -/
def depth : Written → Nat
  | number _ | name _ => 0
  | binary _ left right => max left.depth right.depth
  | call _ as => argumentsDepth as
  | parenthesized e => e.depth + 1

def argumentsDepth : List Written → Nat
  | [] => 0
  | a :: as => max (a.depth + 1) (argumentsDepth as)

end

/-- The operator at the root, if the tree has one and is not written in parentheses. -/
def root? : Written → Option Char
  | binary o _ _ => some o
  | _ => none

/-- What is written is a tree under an operator table: names are names, number texts are literals,
operators have a precedence, and no operand without parentheses binds too loosely. A left operand
binds at least as tightly as the operator, and a right one tighter. -/
inductive Fits (table : PrecedenceTable) : Written → Prop where
  | number {text : String} : (∀ c ∈ text.toList, Scanner.isDigitOrPoint c = true) →
    Literal.isWellFormed text = true → Fits table (number text)
  | name {x : String} : IsName x → Fits table (name x)
  | binary {o : Char} {left right : Written} : 0 < table.precedence o → Fits table left →
    Fits table right → (∀ p ∈ left.root?, table.precedence o ≤ table.precedence p) →
      (∀ p ∈ right.root?, table.precedence o < table.precedence p) →
      Fits table (binary o left right)
  | call {f : String} {as : List Written} : IsName f → (∀ a ∈ as, Fits table a) →
    Fits table (call f as)
  | parenthesized {e : Written} : Fits table e → Fits table (parenthesized e)

end Written

namespace Node

mutual

/-- A tree without its places. -/
def unplaced : Node → Node
  | number v _ => .number v none
  | reference x _ => .reference x none
  | binary o left right _ => .binary o left.unplaced right.unplaced none
  | call f as _ => .call f (unplacedAll as) none
  | prototype p => .prototype { p with location := none }
  | function p body _ => .function { p with location := none } body.unplaced none
  | foreign v => .foreign v

def unplacedAll : List Node → List Node
  | [] => []
  | a :: as => a.unplaced :: unplacedAll as

end

end Node

/-! ## Phrases -/

namespace Phrase

variable {R : Rules} {m n : Nat}

/-- The rest of a chain with more behind it. -/
def append : Phrase .rest → Phrase .rest → Phrase .rest
  | nothing, qs => qs
  | operator c l p ps, qs => operator c l p (ps.append qs)

theorem append_tokens : ∀ ps qs : Phrase .rest, (ps.append qs).tokens = ps.tokens ++ qs.tokens
  | nothing, qs => by simp [append]
  | operator c l p ps, qs => by simp [append, append_tokens ps qs]

theorem append_meaning : ∀ ps qs : Phrase .rest,
    (ps.append qs).meaning R = ps.meaning R ++ qs.meaning R
  | nothing, qs => by simp [append]
  | operator c l p ps, qs => by simp [append, append_meaning ps qs]

theorem append_fits : ∀ {ps qs : Phrase .rest}, ps.Fits R n → qs.Fits R n → (ps.append qs).Fits R n
  | nothing, qs, _, hq => by rwa [append]
  | operator c l p ps, qs, hp, hq => by
    obtain ⟨hc, hp, hps⟩ := fits_operator.1 hp
    rw [append]
    exact fits_operator.2 ⟨hc, hp, append_fits hps hq⟩

end Phrase

namespace Written

open Expression

variable {R : Rules}

/-- However the tokens are placed, they are a chain that groups to the tree. Its operators bind at
least as tightly as the one at the root. -/
def IsChain (R : Rules) (w : Written) : Prop :=
  ∀ ts : List Token, ts.map (·.lexeme) = w.lexemes →
    ∃ (p : Phrase .primary) (ps : Phrase .rest) (n : Node), p.tokens ++ ps.tokens = ts ∧
      p.Fits R w.depth ∧ ps.Fits R w.depth ∧ Chain.Groups (p.meaning R) (ps.meaning R) n ∧
      n.unplaced = w.tree ∧
      ∀ d ∈ ps.meaning R, ∃ o ∈ w.root?, R.table.precedence o ≤ d.1.precedence

/-- However the tokens are placed, they are an expression that stands for the tree. -/
def IsExpression (R : Rules) (w : Written) : Prop :=
  ∀ ts : List Token, ts.map (·.lexeme) = w.lexemes →
    ∃ e : Phrase .expression, e.tokens = ts ∧ e.Fits R (w.depth + 1) ∧
      (e.meaning R).unplaced = w.tree

theorem IsChain.isExpression {w : Written} (h : w.IsChain R) : w.IsExpression R := by
  intro ts ht
  obtain ⟨p, ps, n, htokens, hp, hps, hg, hn, -⟩ := h ts ht
  refine ⟨.chain p ps, htokens, Phrase.fits_chain.2 ⟨hp, hps⟩, ?_⟩
  rw [← hn, ← Chain.climb_of_groups hg]
  rfl

/-- A primary is a chain of its own. -/
theorem isChain_of_primary {w : Written} (h : ∀ ts : List Token, ts.map (·.lexeme) = w.lexemes →
    ∃ p : Phrase .primary, p.tokens = ts ∧ p.Fits R w.depth ∧ (p.meaning R).unplaced = w.tree) :
    w.IsChain R := by
  intro ts ht
  obtain ⟨p, htokens, hp, hm⟩ := h ts ht
  exact ⟨p, .nothing, p.meaning R, by simpa using htokens, hp, by simp,
    .operand _, hm, by simp⟩

theorem isChain_parenthesized {e : Written} (he : e.IsExpression R) :
    (parenthesized e).IsChain R := by
  apply isChain_of_primary
  intro ts ht
  rw [lexemes] at ht
  obtain ⟨l, us, rfl, hus⟩ := exists_location_of_map_eq_cons ht
  obtain ⟨vs, ws, rfl, hvs, hws⟩ := List.map_eq_append_iff.1 hus
  obtain ⟨l', rfl⟩ := exists_location_of_map_eq_singleton hws
  obtain ⟨d, rfl, hf, hm⟩ := he vs hvs
  exact ⟨.group l d l', rfl, Phrase.fits_group.2 hf, by rw [tree, ← hm]; rfl⟩

/-- Arguments are phrases of the grammar if each of them is an expression. -/
theorem exists_arguments {a : Written} {as : List Written} (h : ∀ b ∈ a :: as, b.IsExpression R)
    {ts : List Token} (ht : ts.map (·.lexeme) = argumentLexemes (a :: as)) :
    ∃ es : Phrase .arguments, es.tokens = ts ∧ es.Fits R (argumentsDepth (a :: as)) ∧
      Node.unplacedAll (es.meaning R) = trees (a :: as) := by
  -- the grammar has no empty list of arguments, so the list starts with one that stays apart
  induction as generalizing a ts with
  | nil =>
    obtain ⟨e, rfl, hf, hm⟩ := h a List.mem_cons_self ts (by rwa [argumentLexemes] at ht)
    refine ⟨.argument e, rfl, Phrase.fits_argument.2 (hf.mono ?_), ?_⟩
    · exact Nat.le_max_left _ _
    · rw [Phrase.meaning, Node.unplacedAll, hm]
      rfl
  | cons b as ih =>
    rw [argumentLexemes] at ht
    obtain ⟨us, ws, rfl, hus, hws⟩ := List.map_eq_append_iff.1 ht
    obtain ⟨l, vs, rfl, hvs⟩ := exists_location_of_map_eq_cons hws
    obtain ⟨e, rfl, hf, hm⟩ := h a List.mem_cons_self us hus
    obtain ⟨es, rfl, hfs, hms⟩ := ih (fun c hc => h c (List.mem_cons_of_mem _ hc)) hvs
    refine ⟨.arguments e l es, rfl, Phrase.fits_arguments.2 ⟨hf.mono ?_, hfs.mono ?_⟩, ?_⟩
    · exact Nat.le_max_left _ _
    · exact Nat.le_max_right _ _
    · rw [Phrase.meaning, Node.unplacedAll, hm, hms]
      rfl

theorem isChain_call {f : String} {as : List Written} (h : ∀ a ∈ as, a.IsExpression R) :
    (call f as).IsChain R := by
  apply isChain_of_primary
  intro ts ht
  rw [lexemes] at ht
  obtain ⟨l, us, rfl, hus⟩ := exists_location_of_map_eq_cons ht
  obtain ⟨l', us', rfl, hus'⟩ := exists_location_of_map_eq_cons hus
  obtain ⟨vs, ws, rfl, hvs, hws⟩ := List.map_eq_append_iff.1 hus'
  obtain ⟨l'', rfl⟩ := exists_location_of_map_eq_singleton hws
  cases as with
  | nil =>
    obtain rfl : vs = [] := by simpa [argumentLexemes] using hvs
    exact ⟨.emptyCall f l l' l'', rfl, by simp, rfl⟩
  | cons a as =>
    obtain ⟨es, rfl, hf, hm⟩ := exists_arguments h hvs
    exact ⟨.call f l l' es l'', rfl, Phrase.fits_call.2 hf, by rw [tree, ← hm]; rfl⟩

theorem isChain_binary {o : Char} {left right : Written} (ho : 0 < R.table.precedence o)
    (hl : left.IsChain R) (hr : right.IsChain R)
    (hleft : ∀ p ∈ left.root?, R.table.precedence o ≤ R.table.precedence p)
    (hright : ∀ p ∈ right.root?, R.table.precedence o < R.table.precedence p) :
    (binary o left right).IsChain R := by
  intro ts ht
  rw [lexemes] at ht
  obtain ⟨us, ws, rfl, hus, hws⟩ := List.map_eq_append_iff.1 ht
  obtain ⟨l, vs, rfl, hvs⟩ := exists_location_of_map_eq_cons hws
  obtain ⟨p, ps, m, rfl, hp, hps, hgm, hm, hpr⟩ := hl us hus
  obtain ⟨q, qs, n, rfl, hq, hqs, hgn, hn, hqr⟩ := hr vs hvs
  have hle : left.depth ≤ (binary o left right).depth := Nat.le_max_left _ _
  have hre : right.depth ≤ (binary o left right).depth := Nat.le_max_right _ _
  have hbefore : ∀ d ∈ ps.meaning R, R.table.precedence o ≤ d.1.precedence := by
    intro d hd
    obtain ⟨c, hc, hcd⟩ := hpr d hd
    exact Int.le_trans (hleft c hc) hcd
  have hbehind : ∀ d ∈ qs.meaning R, R.table.precedence o < d.1.precedence := by
    intro d hd
    obtain ⟨c, hc, hcd⟩ := hqr d hd
    exact Int.lt_of_lt_of_le (hright c hc) hcd
  -- the operators of both sides part the chain at this one, so it groups with it at the root
  refine ⟨p, ps.append (.operator o l q qs), Chain.join m ⟨o.toString, R.table.precedence o, l⟩ n,
    ?_, hp.mono hle, ?_, ?_, ?_, ?_⟩
  · simp [Phrase.append_tokens]
  · exact Phrase.append_fits (hps.mono hle)
      (Phrase.fits_operator.2 ⟨ho, hq.mono hre, hqs.mono hre⟩)
  · rw [Phrase.append_meaning]
    exact .join hgm hgn hbefore hbehind
  · rw [Chain.join, Node.unplaced, hm, hn]
    rfl
  · rw [Phrase.append_meaning]
    intro d hd
    refine ⟨o, rfl, ?_⟩
    rcases List.mem_append.1 hd with hd | hd
    · exact hbefore d hd
    · rcases List.mem_cons.1 hd with rfl | hd
      · exact Int.le_refl _
      · exact Int.le_of_lt (hbehind d hd)

/-- What is written under a table is a chain under its rules. -/
theorem Fits.isChain {w : Written} (h : w.Fits R.table) : w.IsChain R := by
  induction h with
  | @number text _ hw =>
    apply isChain_of_primary
    intro ts ht
    obtain ⟨l, rfl⟩ := exists_location_of_map_eq_singleton ht
    exact ⟨.number text l, rfl, Phrase.fits_number.2 (by simp [Rules.acceptsNumber, hw]), rfl⟩
  | @name x _ =>
    apply isChain_of_primary
    intro ts ht
    obtain ⟨l, rfl⟩ := exists_location_of_map_eq_singleton ht
    exact ⟨.name x l, rfl, by simp, rfl⟩
  | binary ho _ _ hleft hright ihl ihr => exact isChain_binary ho ihl ihr hleft hright
  | call _ _ ih => exact isChain_call fun a ha => (ih a ha).isExpression
  | parenthesized _ ih => exact isChain_parenthesized ih.isExpression

/-- What is written is an expression of the grammar, wherever its tokens are. -/
theorem Fits.isExpression {w : Written} (h : w.Fits R.table) : w.IsExpression R :=
  h.isChain.isExpression

end Written

end OperatorGrammar
