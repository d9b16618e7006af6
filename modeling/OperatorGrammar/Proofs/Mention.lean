import Mathlib.Data.List.Forall2
import OperatorGrammar.Proofs.Grammar.Form
import OperatorGrammar.Proofs.Scanning.Place

/-!
Reading a tree back in source order. A tree mentions its tokens: numbers by their values, names and
operators as they are written, each with the place that the tree remembers. Building a tree from a
chain moves none of them. Main statements: `Chain.mentions_climb`, `Phrase.mentions_of` and
`Form.isReadFrom`.
-/

namespace OperatorGrammar

/-- What a tree says of a token. A parameter is remembered without its place. -/
inductive Mention where
  | number (value : Value) (location : Option Location)
  /-- A name in an expression, called or not. -/
  | name (name : Value) (location : Option Location)
  | operator (operator : String) (location : Option Location)
  /-- The name of a function in its prototype. -/
  | function (name : String) (location : Option Location)
  | parameter (name : String)
  | foreign (value : Value)

namespace Mention

/-- A mention of a token says what the token stands for and where it is. -/
inductive Of : Mention → Token → Prop where
  | number (text : String) (l : Location) :
    Of (.number (.number (Literal.value text)) (some l)) ⟨.number text, l⟩
  | name (x : String) (l : Location) : Of (.name (.text x) (some l)) ⟨.identifier x, l⟩
  | operator (c : Char) (l : Location) : Of (.operator c.toString (some l)) ⟨.char c, l⟩
  | function (x : String) (l : Location) : Of (.function x (some l)) ⟨.identifier x, l⟩
  | parameter (x : String) (l : Location) : Of (.parameter x) ⟨.identifier x, l⟩

/-- What an expression remembers as its place, if it is an expression that mentions the token. -/
def expression? : Mention → Option (Option Location)
  | number _ l | name _ l | operator _ l => some l
  | function .. | parameter _ | foreign _ => none

end Mention

/-- The anonymous function has no name to mention. -/
def Prototype.mentions (p : Prototype) : List Mention :=
  (if p.isAnonymous then [] else [.function p.name p.location]) ++ p.parameters.map .parameter

namespace Node

mutual

/-- What a tree mentions, in source order: an operator between its operands, and a name in front of
the arguments that it is called with. -/
def mentions : Node → List Mention
  | number v l => [.number v l]
  | reference x l => [.name x l]
  | binary o left right l => left.mentions ++ .operator o l :: right.mentions
  | call f as l => .name f l :: mentionsAll as
  | prototype p => p.mentions
  | function p body _ => p.mentions ++ body.mentions
  | foreign v => [.foreign v]

def mentionsAll : List Node → List Mention
  | [] => []
  | a :: as => a.mentions ++ mentionsAll as

end

end Node

/-- The tokens that only group what they stand around. -/
def Lexeme.isPunctuation : Lexeme → Bool
  | .char c => c == '(' || c == ')' || c == ','
  | _ => false

/-- The tokens that a tree mentions. -/
def mentioned (ts : List Token) : List Token := ts.filter fun t => !t.lexeme.isPunctuation

@[simp] theorem mentioned_append (ts us : List Token) :
    mentioned (ts ++ us) = mentioned ts ++ mentioned us :=
  List.filter_append ..

theorem mentioned_cons_punctuation {t : Token} (h : t.lexeme.isPunctuation = true)
    (ts : List Token) : mentioned (t :: ts) = mentioned ts := by
  simp [mentioned, h]

theorem mentioned_cons {t : Token} (h : t.lexeme.isPunctuation = false) (ts : List Token) :
    mentioned (t :: ts) = t :: mentioned ts := by
  simp [mentioned, h]

theorem mentioned_closing (l : Location) : mentioned [⟨.char ')', l⟩] = [] := rfl

namespace Expression

/-- What an operator with the operand behind it mentions. -/
def Joint.mention (j : Joint) : Mention := .operator j.operator (some j.location)

namespace Chain

/-- What a chain mentions, in source order. -/
def mentions : Chain → List Mention
  | [] => []
  | (left, j) :: pending => mentions pending ++ left.mentions ++ [j.mention]

theorem mentions_joinAll (right : Node) (pending : Chain) :
    (joinAll right pending).mentions = pending.mentions ++ right.mentions := by
  induction pending generalizing right with
  | nil => rfl
  | cons d pending ih =>
    obtain ⟨left, j⟩ := d
    rw [joinAll, ih]
    simp [mentions, join, Node.mentions, Joint.mention]

/-- Joining operators that bind tighter moves nothing. -/
theorem mentions_joinTighter (precedence : Int) (right : Node) (pending : Chain) :
    (joinTighter precedence right pending).2.mentions ++
        (joinTighter precedence right pending).1.mentions =
      pending.mentions ++ right.mentions := by
  induction pending generalizing right with
  | nil => rfl
  | cons d pending ih =>
    obtain ⟨left, j⟩ := d
    rw [joinTighter]
    split
    · rw [ih]
      simp [mentions, join, Node.mentions, Joint.mention]
    · rfl

/-- Whatever the precedences are, the tree of a chain mentions what the chain does, in the same
order. -/
theorem mentions_climb (pending : Chain) (operand : Node) (rest : List (Joint × Node)) :
    (climb pending operand rest).mentions = pending.mentions ++ operand.mentions ++
      rest.flatMap fun d => d.1.mention :: d.2.mentions := by
  induction rest generalizing pending operand with
  | nil => rw [climb, mentions_joinAll, List.flatMap_nil, List.append_nil]
  | cons d rest ih =>
    obtain ⟨j, next⟩ := d
    have hj := mentions_joinTighter j.precedence operand pending
    rw [climb, ih, mentions, hj]
    simp

end Chain

end Expression

/-- What the meaning of a phrase mentions. -/
def Symbol.mentions : (s : Symbol) → s.Meaning → List Mention
  | .primary, n | .expression, n => Node.mentions n
  | .rest, ds => ds.flatMap fun d => d.1.mention :: d.2.mentions
  | .arguments, as => Node.mentionsAll as

theorem Lexeme.not_isPunctuation_of_isUsable {c : Char}
    (h : PrecedenceTable.isUsable c = true) : (Lexeme.char c).isPunctuation = false := by
  apply Bool.eq_false_iff.2
  intro hp
  simp only [isPunctuation, Bool.or_eq_true, beq_iff_eq] at hp
  rcases hp with (rfl | rfl) | rfl <;> exact absurd h (by decide)

namespace Phrase

variable {R : Rules}

/-- The meaning of a phrase mentions its tokens in order, but for the punctuation. -/
theorem mentions_of {s : Symbol} (p : Phrase s)
    (h : ∀ c ∈ p.operators, 0 < R.table.precedence c) :
    List.Forall₂ Mention.Of (s.mentions (p.meaning R)) (mentioned p.tokens) := by
  have single : ∀ {m : Mention} {t : Token}, m.Of t → List.Forall₂ Mention.Of [m] [t] :=
    fun h => .cons h .nil
  induction p with
  | name x l => exact single (.name x l)
  | number text l => exact single (.number text l)
  | group l e l' ih =>
    rw [tokens, mentioned_cons_punctuation rfl, mentioned_append, mentioned_closing,
      List.append_nil]
    exact ih h
  | emptyCall f l l' l'' => exact single (.name f l)
  | call f l l' as l'' ih =>
    rw [tokens, mentioned_cons rfl, mentioned_cons_punctuation rfl, mentioned_append,
      mentioned_closing, List.append_nil]
    exact .cons (.name f l) (ih h)
  | nothing => exact .nil
  | operator c l p ps ihp ihps =>
    obtain ⟨hc, hps⟩ := List.forall_mem_cons.1 h
    obtain ⟨hp, hps⟩ := List.forall_mem_append.1 hps
    have hu := PrecedenceTable.isUsable_of_precedence_pos hc
    rw [tokens, mentioned_cons (Lexeme.not_isPunctuation_of_isUsable hu), mentioned_append]
    exact .cons (.operator c l) (List.rel_append (ihp hp) (ihps hps))
  | chain p ps ihp ihps =>
    obtain ⟨hp, hps⟩ := List.forall_mem_append.1 h
    rw [tokens, mentioned_append]
    have hm : Symbol.mentions .expression ((chain p ps).meaning R) =
        Symbol.mentions .primary (p.meaning R) ++ Symbol.mentions .rest (ps.meaning R) :=
      Expression.Chain.mentions_climb [] (p.meaning R) (ps.meaning R)
    rw [hm]
    exact List.rel_append (ihp hp) (ihps hps)
  | argument e ih =>
    have hm : Symbol.mentions .arguments ((argument e).meaning R) =
        Symbol.mentions .expression (e.meaning R) := List.append_nil _
    rw [hm]
    exact ih h
  | arguments e l as ihe ihas =>
    obtain ⟨he, has⟩ := List.forall_mem_append.1 h
    rw [tokens, mentioned_append, mentioned_cons_punctuation rfl]
    exact List.rel_append (ihe he) (ihas has)

end Phrase

/-! ## Forms -/

/-- Where a form's tree is: a definition at its keyword, an anonymous function and its prototype at
the first token of the expression. -/
def Node.StartsAt (first : Token) : FormKind → Node → Prop
  | .definition, n => first.lexeme = .define ∧
      ∃ p body, n = .function p body (some first.location) ∧ p.isAnonymous = false
  | .external, n => first.lexeme = .external ∧ ∃ p, n = .prototype p ∧ p.isAnonymous = false
  | .expression, n => ∃ body,
      n = .function (.anonymous (some first.location)) body (some first.location)

/-- A tree that has been read from the tokens of a form: it starts where they do and mentions all of
them, in order and without repetition, but for the form's keyword and the punctuation; and its
expressions are at ever later places. -/
structure Node.IsReadFrom (kind : FormKind) (ts : List Token) (n : Node) : Prop where
  start : ∃ first rest, ts = first :: rest ∧ n.StartsAt first kind
  mentions : List.Forall₂ Mention.Of n.mentions
    (mentioned (if kind = .expression then ts else ts.tail))
  increasing : ∃ ls : List Location, n.mentions.filterMap Mention.expression? = ls.map some ∧
    ls.Pairwise Location.IsBefore

/-- Mentions of tokens of which each stands behind the one before have increasing places. -/
theorem Mention.increasing_of {ms : List Mention} {ts : List Token}
    (h : List.Forall₂ Mention.Of ms ts)
    (ht : ts.Pairwise fun s t => s.location.IsBefore t.location) :
    ∃ ls : List Location, ms.filterMap Mention.expression? = ls.map some ∧
      ls.Pairwise Location.IsBefore := by
  -- some places are not remembered, so those of the mentions are a part of those of the tokens
  suffices hs : ∃ ls : List Location, ms.filterMap Mention.expression? = ls.map some ∧
      ls.Sublist (ts.map Token.location) by
    obtain ⟨ls, he, hsub⟩ := hs
    exact ⟨ls, he, (List.pairwise_map.2 ht).sublist hsub⟩
  clear ht
  induction h with
  | nil => exact ⟨[], rfl, .slnil⟩
  | cons hm _ ih =>
    obtain ⟨ls, he, hsub⟩ := ih
    cases hm with
    | number text l => exact ⟨l :: ls, by simp [expression?, he], hsub.cons_cons l⟩
    | name x l => exact ⟨l :: ls, by simp [expression?, he], hsub.cons_cons l⟩
    | operator c l => exact ⟨l :: ls, by simp [expression?, he], hsub.cons_cons l⟩
    | function x l => exact ⟨ls, (List.filterMap_cons_none rfl).trans he, hsub.cons l⟩
    | parameter x l => exact ⟨ls, (List.filterMap_cons_none rfl).trans he, hsub.cons l⟩

/-- A prototype mentions its name and its parameters. -/
theorem Signature.mentions_of (g : Signature) (hn : g.name ≠ "") :
    List.Forall₂ Mention.Of g.prototype.mentions (mentioned g.tokens) := by
  have hp : ∀ xs : List (String × Location), List.Forall₂ Mention.Of
      ((xs.map Prod.fst).map Mention.parameter) (mentioned (parameterTokens xs)) := by
    intro xs
    induction xs with
    | nil => exact .nil
    | cons x xs ih =>
      have ht : mentioned (parameterTokens (x :: xs)) =
          ⟨.identifier x.1, x.2⟩ :: mentioned (parameterTokens xs) := mentioned_cons rfl _
      rw [ht]
      exact .cons (.parameter x.1 x.2) ih
  have ha : g.prototype.isAnonymous = false := by
    simpa [Prototype.isAnonymous, prototype] using hn
  rw [tokens, mentioned_cons rfl, mentioned_cons_punctuation rfl, mentioned_append,
    mentioned_closing, List.append_nil, Prototype.mentions, ha]
  exact .cons (.function g.name g.location) (hp g.parameters)

/-- The tree of a form mentions the form's tokens. -/
theorem Form.isReadFrom {R : Rules} {F : Form} {kind : FormKind} {n : Node} (hf : F.Fits R)
    (hr : F.result? R = some ⟨kind, .ok n⟩) (hn : ∀ t ∈ F.tokens, t.lexeme.text ≠ "")
    (hl : F.tokens.Pairwise fun s t => s.location.IsBefore t.location) :
    n.IsReadFrom kind F.tokens := by
  suffices h : (∃ first rest, F.tokens = first :: rest ∧ n.StartsAt first kind) ∧
      List.Forall₂ Mention.Of n.mentions
        (mentioned (if kind = .expression then F.tokens else F.tokens.tail)) by
    refine ⟨h.1, h.2, Mention.increasing_of h.2 (hl.sublist ?_)⟩
    refine List.filter_sublist.trans ?_
    split
    · exact .refl _
    · exact List.tail_sublist _
  cases F with
  | semicolon l => cases hr
  | expression e =>
    obtain ⟨rfl, rfl⟩ := by simpa [result?] using hr
    obtain ⟨x, ts, hx, -⟩ := e.exists_tokens_eq_cons
    exact ⟨⟨_, ts, hx, _, rfl⟩, e.mentions_of hf.operators⟩
  | external l g =>
    obtain ⟨rfl, rfl⟩ := by simpa [result?] using hr
    have hg : g.name ≠ "" := hn ⟨.identifier g.name, g.location⟩ (by simp [tokens, Signature.tokens])
    refine ⟨⟨_, _, rfl, rfl, _, rfl, ?_⟩, g.mentions_of hg⟩
    simpa [Prototype.isAnonymous, Signature.prototype] using hg
  | definition l g body =>
    obtain ⟨rfl, rfl⟩ := by simpa [result?] using hr
    have hg : g.name ≠ "" := hn ⟨.identifier g.name, g.location⟩ (by simp [tokens, Signature.tokens])
    refine ⟨⟨_, _, rfl, rfl, _, _, rfl, ?_⟩, ?_⟩
    · simpa [Prototype.isAnonymous, Signature.prototype] using hg
    · have hm : mentioned (definition l g body).tokens.tail =
          mentioned g.tokens ++ mentioned body.tokens := mentioned_append ..
      rw [if_neg (by decide), hm]
      exact List.rel_append (g.mentions_of hg) (body.mentions_of hf.2.operators)

end OperatorGrammar
