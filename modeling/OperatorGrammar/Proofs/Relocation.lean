import Mathlib.Data.List.Forall2
import OperatorGrammar.Proofs.Locality

/-!
Inputs that are read alike. Reading does not look at places: where the tokens are moved, what is
read from them is the same, with its places moved. Nor does it look at more of a number than its
value. Main statement: `Parser.form_alike`.
-/

namespace OperatorGrammar

/-! ## What has places -/

def Token.relocate (m : Location → Location) (t : Token) : Token := ⟨t.lexeme, m t.location⟩

def Prototype.relocate (m : Location → Location) (p : Prototype) : Prototype :=
  { p with location := p.location.map m }

namespace Node

mutual

/-- A tree with each place in it moved. -/
def relocate (m : Location → Location) : Node → Node
  | number v l => .number v (l.map m)
  | reference x l => .reference x (l.map m)
  | binary o left right l => .binary o (left.relocate m) (right.relocate m) (l.map m)
  | call f as l => .call f (relocateAll m as) (l.map m)
  | prototype p => .prototype (p.relocate m)
  | function p body l => .function (p.relocate m) (body.relocate m) (l.map m)
  | foreign v => .foreign v

def relocateAll (m : Location → Location) : List Node → List Node
  | [] => []
  | a :: as => a.relocate m :: relocateAll m as

end

theorem relocateAll_eq_map (m : Location → Location) (ns : List Node) :
    relocateAll m ns = ns.map (relocate m) := by
  induction ns with
  | nil => rfl
  | cons a as ih => rw [relocateAll, ih, List.map_cons]

mutual

theorem relocate_id : ∀ n : Node, n.relocate id = n
  | number _ _ | reference _ _ => by simp [relocate]
  | binary _ left right _ => by simp [relocate, relocate_id left, relocate_id right]
  | call _ as _ => by simp [relocate, relocateAll_id as]
  | prototype _ => by simp [relocate, Prototype.relocate]
  | function _ body _ => by simp [relocate, Prototype.relocate, relocate_id body]
  | foreign _ => rfl

theorem relocateAll_id : ∀ ns : List Node, relocateAll id ns = ns
  | [] => rfl
  | n :: ns => by simp [relocateAll, relocate_id n, relocateAll_id ns]

end

end Node

namespace Expression

variable (m : Location → Location)

def Joint.relocate (j : Joint) : Joint := { j with location := m j.location }

def Chain.relocate (c : Chain) : Chain := c.map fun d => (d.1.relocate m, d.2.relocate m)

def Enclosure.relocate : Enclosure → Enclosure
  | .group => .group
  | .call f l arguments => .call f (m l) (arguments.map (Node.relocate m))

def Level.relocate (level : Level) : Level :=
  ⟨level.chain.relocate m, level.enclosure.relocate m⟩

def Progress.relocate : Progress → Progress
  | .entering => .entering
  | .operand => .operand
  | .arguments f l => .arguments f (m l)
  | .named x l => .named x (m l)
  | .complete e => .complete (e.relocate m)

def Reader.relocate (r : Reader) : Reader :=
  ⟨r.goal, r.levels.map (Level.relocate m), r.chain.relocate m, r.progress.relocate m, r.opened⟩

/-! ## Chains -/

variable {m}

@[simp] theorem Joint.relocate_precedence (j : Joint) :
    (j.relocate m).precedence = j.precedence := rfl

namespace Chain

@[simp] theorem relocate_cons (e : Node) (j : Joint) (c : Chain) :
    relocate m ((e, j) :: c) = (e.relocate m, j.relocate m) :: c.relocate m := rfl

theorem join_relocate (left right : Node) (j : Joint) :
    join (left.relocate m) (j.relocate m) (right.relocate m) = (join left j right).relocate m := rfl

theorem joinAll_relocate (e : Node) (c : Chain) :
    joinAll (e.relocate m) (c.relocate m) = (joinAll e c).relocate m := by
  induction c generalizing e with
  | nil => rfl
  | cons d c ih => exact ih (join d.1 d.2 e)

theorem joinTighter_relocate (precedence : Int) (e : Node) (c : Chain) :
    joinTighter precedence (e.relocate m) (c.relocate m) =
      ((joinTighter precedence e c).1.relocate m, (joinTighter precedence e c).2.relocate m) := by
  induction c generalizing e with
  | nil => rfl
  | cons d c ih =>
    obtain ⟨left, j⟩ := d
    rw [relocate_cons, joinTighter, joinTighter, Joint.relocate_precedence]
    by_cases h : precedence ≤ j.precedence
    · rw [if_pos h, if_pos h, join_relocate]
      exact ih (join left j e)
    · rw [if_neg h, if_neg h, relocate_cons]

/-- The rest of a chain in reading order, with each place moved. -/
def relocateRest (m : Location → Location) (rest : List (Joint × Node)) : List (Joint × Node) :=
  rest.map fun d => (d.1.relocate m, d.2.relocate m)

theorem climb_relocate (c : Chain) (e : Node) (rest : List (Joint × Node)) :
    climb (c.relocate m) (e.relocate m) (relocateRest m rest) = (climb c e rest).relocate m := by
  induction rest generalizing c e with
  | nil => exact joinAll_relocate e c
  | cons d rest ih =>
    obtain ⟨j, next⟩ := d
    have h := joinTighter_relocate (m := m) j.precedence e c
    rw [relocateRest, List.map_cons, climb, climb, Joint.relocate_precedence, h]
    exact ih ((_, j) :: _) next

theorem inOrder_relocate (c : Chain) (e : Node) :
    (c.relocate m).inOrder (e.relocate m) =
      ((c.inOrder e).1.relocate m, relocateRest m (c.inOrder e).2) := by
  -- the fold has to start with any rest, since each operand goes in front of what is there
  suffices h : ∀ (c : Chain) (f : Node) (rest : List (Joint × Node)),
      (c.relocate m).foldl front (f.relocate m, relocateRest m rest) =
        ((c.foldl front (f, rest)).1.relocate m, relocateRest m (c.foldl front (f, rest)).2) by
    exact h c e []
  intro c
  induction c with
  | nil => intro f rest; rfl
  | cons d c ih => intro f rest; exact ih d.1 ((d.2, f) :: rest)

theorem close_relocate (c : Chain) (e : Node) :
    (c.relocate m).close (e.relocate m) = (c.close e).relocate m := by
  rw [close, close, inOrder_relocate]
  exact climb_relocate [] _ _

end Chain

/-! ## Readers -/

namespace Reader

variable {R : Rules}

theorem takesOperator_relocate (r : Reader) (l : Lexeme) :
    (r.relocate m).takesOperator R l = r.takesOperator R l := by
  have h : (r.relocate m).leastPrecedence = r.leastPrecedence := by
    obtain ⟨goal, levels, chain, progress, opened⟩ := r
    cases levels <;> rfl
  simp only [takesOperator, h]

@[simp] theorem isChar_relocate (t : Token) (c : Char) : (t.relocate m).isChar c = t.isChar c := rfl

theorem enter?_relocate (r : Reader) :
    (r.relocate m).enter? R = (r.enter? R).map (relocate m) := by
  unfold enter?
  rw [show (r.relocate m).opened = r.opened from rfl]
  split <;> rfl

theorem readOperand?_relocate (r : Reader) (t : Token) :
    (r.relocate m).readOperand? R (t.relocate m) = (r.readOperand? R t).map (relocate m) := by
  obtain ⟨lexeme, l⟩ := t
  cases lexeme with
  | number text =>
    simp only [readOperand?, Token.relocate]
    by_cases h : R.acceptsNumber text = true
    · rw [if_pos h, if_pos h]
      rfl
    · rw [if_neg h, if_neg h]
      rfl
  | char c =>
    simp only [readOperand?, Token.relocate]
    by_cases h : c = '('
    · rw [if_pos h, if_pos h]
      rfl
    · rw [if_neg h, if_neg h]
      rfl
  | _ => rfl

theorem enterOperand?_relocate (r : Reader) (t : Token) :
    ((r.relocate m).enter? R).bind (readOperand? R · (t.relocate m)) =
      ((r.enter? R).bind (readOperand? R · t)).map (relocate m) := by
  rw [enter?_relocate]
  cases r.enter? R with
  | none => rfl
  | some q => exact readOperand?_relocate q t

theorem readOn?_relocate (r : Reader) (e : Node) (t : Token) :
    (r.relocate m).readOn? R (e.relocate m) (t.relocate m) =
      (r.readOn? R e t).map (relocate m) := by
  unfold readOn?
  rw [show (t.relocate m).lexeme = t.lexeme from rfl, takesOperator_relocate]
  split
  · rfl
  · obtain ⟨goal, levels, chain, progress, opened⟩ := r
    cases levels with
    | nil => rfl
    | cons level levels =>
      obtain ⟨outer, enclosure⟩ := level
      have hc := Chain.close_relocate (m := m) chain e
      cases enclosure with
      | group =>
        simp only [relocate, List.map_cons, Level.relocate, Enclosure.relocate, isChar_relocate, hc]
        split <;> rfl
      | call f l arguments =>
        simp only [relocate, List.map_cons, Level.relocate, Enclosure.relocate, isChar_relocate, hc]
        split
        · simp [Progress.relocate, Node.relocate, Node.relocateAll_eq_map, relocate]
        · split <;> rfl

theorem read?_relocate (r : Reader) (t : Token) :
    (r.relocate m).read? R (t.relocate m) = (r.read? R t).map (relocate m) := by
  unfold read?
  rw [show (r.relocate m).progress = r.progress.relocate m from rfl]
  cases hp : r.progress with
  | entering => exact enterOperand?_relocate r t
  | operand => exact readOperand?_relocate r t
  | arguments f l =>
    by_cases h : t.isChar ')' = true
    · have h' : (t.relocate m).isChar ')' = true := h
      simp only [Progress.relocate, if_pos h', if_pos h]
      rfl
    · have h' : ¬ (t.relocate m).isChar ')' = true := h
      simp only [Progress.relocate, if_neg h', if_neg h]
      exact enterOperand?_relocate (r.push (.call f l [])) t
  | named x l =>
    by_cases h : t.isChar '(' = true
    · have h' : (t.relocate m).isChar '(' = true := h
      simp only [Progress.relocate, if_pos h', if_pos h]
      rfl
    · have h' : ¬ (t.relocate m).isChar '(' = true := h
      simp only [Progress.relocate, if_neg h', if_neg h]
      exact readOn?_relocate r (.reference x (some l)) t
  | complete e => exact readOn?_relocate r e t

theorem endOn_relocate (r : Reader) (e : Node) (l : Lexeme) :
    (r.relocate m).endOn R (e.relocate m) l = (r.endOn R e l).map (Node.relocate m) := by
  unfold endOn
  rw [takesOperator_relocate]
  obtain ⟨goal, levels, chain, progress, opened⟩ := r
  cases levels with
  | nil =>
    have hc := Chain.close_relocate (m := m) chain e
    simp only [relocate, List.map_nil, hc]
    split <;> rfl
  | cons level levels =>
    obtain ⟨outer, enclosure⟩ := level
    cases enclosure <;> rfl

theorem endBefore_relocate (r : Reader) (l : Lexeme) :
    (r.relocate m).endBefore R l = (r.endBefore R l).map (Node.relocate m) := by
  unfold endBefore
  rw [show (r.relocate m).progress = r.progress.relocate m from rfl]
  cases hp : r.progress with
  | named x l' => exact endOn_relocate r (.reference x (some l')) l
  | complete e => exact endOn_relocate r e l
  | _ => rfl

theorem leftOpen_relocate (r : Reader) : (r.relocate m).leftOpen = r.leftOpen := by
  obtain ⟨goal, levels, chain, progress, opened⟩ := r
  cases progress <;> simp [leftOpen, openHere, relocate, Progress.relocate]

end Reader

end Expression

/-! ## Tokens that are read alike -/

/-- Lexemes that are read alike: the same, or two numbers that are accepted and have one value. -/
inductive Lexeme.ReadsAs (R : Rules) : Lexeme → Lexeme → Prop where
  | same (x : Lexeme) : ReadsAs R x x
  | number {text text' : String} : R.acceptsNumber text = true → R.acceptsNumber text' = true →
    Literal.value text' = Literal.value text → ReadsAs R (.number text) (.number text')

namespace Lexeme.ReadsAs

variable {R : Rules} {x x' : Lexeme}

/-- All lexemes but numbers are read alike only if they are the same. -/
theorem eq_iff (h : x.ReadsAs R x') {y : Lexeme} (hy : ∀ text, y ≠ .number text) :
    x' = y ↔ x = y := by
  cases h with
  | same => exact Iff.rfl
  | number => exact ⟨fun h => absurd h.symm (hy _), fun h => absurd h.symm (hy _)⟩

theorem isChar_eq {t t' : Token} (h : t.lexeme.ReadsAs R t'.lexeme) (c : Char) :
    t'.isChar c = t.isChar c := by
  rw [Token.isChar, Token.isChar, Bool.eq_iff_iff, beq_iff_eq, beq_iff_eq]
  exact h.eq_iff fun _ he => by cases he

theorem kind_eq (h : x.ReadsAs R x') : FormKind.ofLexeme x' = FormKind.ofLexeme x := by
  cases h <;> rfl

end Lexeme.ReadsAs

namespace Expression.Reader

variable {R : Rules} {r : Reader} {text text' : String} {l : Location}

/-- A number stands behind no operand. -/
theorem readOn?_number (h : r.leastPrecedence = some 0) (e : Node) :
    r.readOn? R e ⟨.number text, l⟩ = none := by
  have ht : r.takesOperator R (.number text) = false :=
    takesOperator_of_not_pos h (by simp [Rules.precedence, PrecedenceTable.noPrecedence])
  simp only [readOn?, ht, Bool.false_eq_true, if_false]
  split
  · rfl
  · split <;> rfl

/-- Where a number is read, only its value counts. -/
theorem read?_number (h : r.leastPrecedence = some 0) (ha : R.acceptsNumber text = true)
    (ha' : R.acceptsNumber text' = true) (hv : Literal.value text' = Literal.value text) :
    r.read? R ⟨.number text', l⟩ = r.read? R ⟨.number text, l⟩ := by
  have operand : ∀ q : Reader, q.readOperand? R ⟨.number text', l⟩ =
      q.readOperand? R ⟨.number text, l⟩ := by
    intro q
    simp only [readOperand?, ha, ha', hv]
  unfold read?
  cases r.progress with
  | entering => simp only [operand]
  | operand => exact operand r
  | arguments f m => simp only [operand]; rfl
  | named x m => simp only [readOn?_number h]; rfl
  | complete e => simp only [readOn?_number h]

/-- Where a number is refused that is accepted as an operand, its text does not count. -/
theorem endBefore_number (h : r.leastPrecedence = some 0) (ha : R.acceptsNumber text = true)
    (hn : r.read? R ⟨.number text, l⟩ = none) :
    r.endBefore R (.number text') = r.endBefore R (.number text) := by
  have on : ∀ e, r.endOn R e (.number text') = r.endOn R e (.number text) := by
    intro e
    rw [endOn, endOn, takesOperator_of_not_pos h, takesOperator_of_not_pos h]
    · simp [Rules.precedence, PrecedenceTable.noPrecedence]
    · simp [Rules.precedence, PrecedenceTable.noPrecedence]
  -- an operand would have been read, so too many expressions are open
  have entry : r.progress = .entering ∨ (∃ f m, r.progress = .arguments f m) →
      r.entryFault R (.number text') = r.entryFault R (.number text) := by
    intro hp
    have ho : ¬ r.opened < R.maxDepth := by
      intro ho
      rcases hp with hp | ⟨f, m, hp⟩
      · simp [read?, hp, enter?, ho, readOperand?, ha] at hn
      · simp [read?, hp, enter?, push, ho, readOperand?, ha, Token.isChar] at hn
    rw [entryFault, entryFault, if_neg ho, if_neg ho]
  unfold endBefore
  cases hp : r.progress with
  | entering => exact congrArg Except.error (entry (.inl hp))
  | operand => simp [read?, hp, readOperand?, ha] at hn
  | arguments f m => exact congrArg Except.error (entry (.inr ⟨f, m, hp⟩))
  | named x m => exact on _
  | complete e => exact on e

end Expression.Reader

/-! ## Readings -/

variable {m : Location → Location}

/-- The same token, scanned at another place. As much is known of its line. -/
structure Scanned.Placed (m : Location → Location) (t t' : Scanned) : Prop where
  token : t'.token = t.token.relocate m
  sourceLine : t'.sourceLine = t.sourceLine

theorem Scanned.Placed.lexeme {t t' : Scanned} (h : t.Placed m t') :
    t'.token.lexeme = t.token.lexeme := by
  rw [h.token]
  rfl

/-- A failure that shows at another place is reported there, and alike otherwise. -/
theorem Failure.diagnostic_of_placed {f f' : Failure} (hf : f'.fault = f.fault)
    (ht : f.token.Placed m f'.token) :
    f'.diagnostic = { f.diagnostic with location := some (m f.location) } := by
  rw [diagnostic, diagnostic, location, location, ht.token, ht.sourceLine, hf]
  rfl

/-- A relation between tokens that are read alike, of which the second is at the place to which the
first is moved. -/
structure Rules.Pairs (R : Rules) (m : Location → Location) (T : Scanned → Scanned → Prop) :
    Prop where
  lexeme : ∀ {t t'}, T t t' → t.token.lexeme.ReadsAs R t'.token.lexeme
  location : ∀ {t t'}, T t t' → t'.token.location = m t.token.location

/-- Tokens that are moved are read alike. -/
theorem Rules.pairs_placed (R : Rules) (m : Location → Location) :
    R.Pairs m (Scanned.Placed m) where
  lexeme h := by
    rw [h.lexeme]
    exact .same _
  location h := by
    rw [h.token]
    rfl

/-- Inputs whose tokens are related pairwise. -/
structure Upcoming.Paired (T : Scanned → Scanned → Prop) (u u' : Upcoming) : Prop where
  tokens : List.Forall₂ T u.tokens u'.tokens
  last : T u.last u'.last

/-- Results that are alike: one can be moved to the other, or they have the same fault at related
tokens. -/
inductive Agrees (T : Scanned → Scanned → Prop) {α : Type} (move : α → α) :
    Except Failure α → Except Failure α → Prop where
  | ok (a : α) : Agrees T move (.ok a) (.ok (move a))
  | error {f f' : Failure} : f'.fault = f.fault → T f.token f'.token →
    Agrees T move (.error f) (.error f')

section Alike

variable {R : Rules} {T : Scanned → Scanned → Prop} {u u' : Upcoming} {us us' : List Scanned}

theorem Agrees.map {α β : Type} {move : α → α} {move' : β → β} {x x' : Except Failure α}
    {f f' : α → β} (h : Agrees T move x x') (hf : ∀ a, f' (move a) = move' (f a)) :
    Agrees T move' (x.map f) (x'.map f') := by
  cases h with
  | ok a =>
    rw [Except.map, Except.map, hf]
    exact .ok (f a)
  | error hfault ht => exact .error hfault ht

namespace Upcoming

theorem Paired.head (h : u.Paired T u') : T u.head u'.head := by
  obtain ⟨ts, last, hl⟩ := u
  obtain ⟨ts', last', hl'⟩ := u'
  cases h.tokens with
  | nil => exact h.last
  | cons ha _ => exact ha

theorem Paired.lexeme (h : u.Paired T u') (hT : R.Pairs m T) : u.lexeme.ReadsAs R u'.lexeme :=
  hT.lexeme h.head

theorem Paired.location (h : u.Paired T u') (hT : R.Pairs m T) :
    u'.head.token.location = m u.head.token.location :=
  hT.location h.head

theorem Paired.withTokens (h : u.Paired T u') (ht : List.Forall₂ T us us') :
    (u.withTokens us).Paired T (u'.withTokens us') := ⟨ht, h.last⟩

theorem Paired.advance (h : u.Paired T u') : u.advance.Paired T u'.advance := by
  obtain ⟨ts, last, hl⟩ := u
  obtain ⟨ts', last', hl'⟩ := u'
  refine ⟨?_, h.last⟩
  cases h.tokens with
  | nil => exact .nil
  | cons _ ht => exact ht

end Upcoming

namespace Expression.Reader

/-- Tokens that are read alike are taken in alike. -/
theorem read?_of_pairs (hT : R.Pairs m T) {r : Reader} (hz : r.leastPrecedence = some 0)
    {t t' : Scanned} (h : T t t') :
    (r.relocate m).read? R t'.token = (r.read? R t.token).map (relocate m) := by
  have hx := hT.lexeme h
  have hl := hT.location h
  rw [← read?_relocate]
  obtain ⟨⟨x, l⟩, window, requests⟩ := t
  obtain ⟨⟨x', l'⟩, window', requests'⟩ := t'
  dsimp only at hx hl
  subst hl
  cases hx with
  | same => rfl
  | number ha ha' hv =>
    have hz' : (r.relocate m).leastPrecedence = some 0 := by
      obtain ⟨goal, levels, chain, progress, opened⟩ := r
      cases levels <;> exact hz
    exact read?_number hz' ha ha' hv

/-- In front of tokens that are read alike, reading ends alike. -/
theorem endBefore_of_pairs (hT : R.Pairs m T) {r : Reader} (hz : r.leastPrecedence = some 0)
    {t t' : Scanned} (h : T t t')
    (hn : t.token.lexeme = .endOfInput ∨ r.read? R t.token = none) :
    Agrees T (Node.relocate m) ((r.endBefore R t.token.lexeme).mapError (⟨·, t⟩))
      (((r.relocate m).endBefore R t'.token.lexeme).mapError (⟨·, t'⟩)) := by
  have hend : r.endBefore R t'.token.lexeme = r.endBefore R t.token.lexeme := by
    have hx := hT.lexeme h
    revert hn hx
    obtain ⟨⟨x, l⟩, window, requests⟩ := t
    generalize t'.token.lexeme = x'
    intro hn hx
    cases hx with
    | same => rfl
    | number ha ha' hv => exact endBefore_number hz ha (hn.resolve_left nofun)
  rw [endBefore_relocate, hend]
  cases r.endBefore R t.token.lexeme with
  | ok n => exact .ok n
  | error fault => exact .error rfl h

theorem runOn_alike (hT : R.Pairs m T) {last last' : Scanned} {ts ts' : List Scanned}
    (hend : last.token.lexeme = .endOfInput) (hl : T last last') (ht : List.Forall₂ T ts ts')
    {r : Reader} {outside : Nat} {taken : List Token} (hb : Begun R outside r taken) :
    Agrees T (Node.relocate m) (r.runOn R last ts).result
        ((r.relocate m).runOn R last' ts').result ∧
      List.Forall₂ T (r.runOn R last ts).rest ((r.relocate m).runOn R last' ts').rest ∧
      ((r.relocate m).runOn R last' ts').opened = (r.runOn R last ts).opened := by
  induction ht generalizing r taken with
  | nil =>
    exact ⟨endBefore_of_pairs hT hb.leastPrecedence hl (.inl hend), .nil, leftOpen_relocate r⟩
  | @cons t t' ts ts' ha ht ih =>
    have hr := read?_of_pairs hT hb.leastPrecedence ha
    simp only [runOn, hr]
    cases hq : r.read? R t.token with
    | some q => exact ih (hb.read hq)
    | none =>
      exact ⟨endBefore_of_pairs hT hb.leastPrecedence ha (.inr hq), .cons ha ht,
        leftOpen_relocate r⟩

end Expression.Reader

namespace Prototype

theorem readParameters_alike (hT : R.Pairs m T) {ts ts' : List Scanned}
    (h : List.Forall₂ T ts ts') (read : List String) :
    Agrees T id (readParameters read ts).1 (readParameters read ts').1 ∧
      List.Forall₂ T (readParameters read ts).2 (readParameters read ts').2 := by
  induction h generalizing read with
  | nil => exact ⟨.ok _, .nil⟩
  | @cons t t' ts ts' ha ht ih =>
    have hx : ∀ x, t'.token.lexeme = .identifier x ↔ t.token.lexeme = .identifier x := fun x =>
      (hT.lexeme ha).eq_iff fun _ => nofun
    by_cases hname : ∃ x, t.token.lexeme = .identifier x
    · obtain ⟨x, hl⟩ := hname
      simp only [readParameters, hl, (hx x).2 hl]
      by_cases hm : x ∈ read
      · simp only [if_pos hm]
        exact ⟨.error rfl ha, .cons ha ht⟩
      · simp only [if_neg hm]
        exact ih (x :: read)
    · -- neither token is a name
      have stop : ∀ {t : Scanned} (ts : List Scanned), (∀ x, t.token.lexeme ≠ .identifier x) →
          readParameters read (t :: ts) = (.ok read.reverse, t :: ts) := by
        intro t ts hn
        unfold readParameters
        split
        · exact absurd ‹_› (hn _)
        · rfl
      rw [stop ts fun x hl => hname ⟨x, hl⟩, stop ts' fun x hl => hname ⟨x, (hx x).1 hl⟩]
      exact ⟨.ok _, .cons ha ht⟩

theorem missing_alike {α : Type} {move : α → α} (expected : Expected) (h : u.Paired T u') :
    Agrees T move (missing expected u).1 (missing expected u').1 ∧
      (missing (α := α) expected u).2.Paired T (missing (α := α) expected u').2 :=
  ⟨.error rfl h.head, h⟩

theorem read_alike (hT : R.Pairs m T) (h : u.Paired T u') :
    Agrees T (Prototype.relocate m) (Prototype.read u).1 (Prototype.read u').1 ∧
      (Prototype.read u).2.Paired T (Prototype.read u').2 := by
  have hname : ∀ x, u'.lexeme = .identifier x ↔ u.lexeme = .identifier x := fun x =>
    (h.lexeme hT).eq_iff fun _ => nofun
  have hchar : ∀ {v v' : Upcoming}, v.Paired T v' → ∀ c, v'.lexeme = .char c ↔ v.lexeme = .char c :=
    fun h c => (h.lexeme hT).eq_iff fun _ => nofun
  by_cases hx : ∃ x, u.lexeme = .identifier x
  case neg =>
    have hn : ∀ x, u.lexeme ≠ .identifier x := fun x h => hx ⟨x, h⟩
    rw [read_of_unnamed hn, read_of_unnamed fun x hl => hn x ((hname x).1 hl)]
    exact missing_alike _ h
  obtain ⟨x, hx⟩ := hx
  have hx' := (hname x).2 hx
  have ho' := hchar h.advance '('
  by_cases ho : u.advance.lexeme = .char '('
  case neg =>
    rw [read_of_unopened hx ho, read_of_unopened hx' (mt ho'.1 ho)]
    exact missing_alike _ h.advance
  obtain ⟨hp, hrest⟩ := readParameters_alike hT h.advance.advance.tokens []
  rcases hr : readParameters [] u.advance.advance.tokens with ⟨result, left⟩
  rcases hr' : readParameters [] u'.advance.advance.tokens with ⟨result', left'⟩
  rw [hr, hr'] at hp hrest
  have hleft := h.withTokens hrest
  dsimp only at hp
  cases hp with
  | error hfault ht =>
    rw [read_of_duplicate hx ho hr, read_of_duplicate hx' (ho'.2 ho) hr']
    exact ⟨.error hfault ht, hleft⟩
  | ok ps =>
    have hc' := hchar hleft ')'
    by_cases hc : (u.withTokens left).lexeme = .char ')'
    · rw [read_of_closed hx ho hr hc, read_of_closed hx' (ho'.2 ho) hr' (hc'.2 hc), h.location hT]
      exact ⟨.ok _, hleft.advance⟩
    · rw [read_of_unclosed hx ho hr hc, read_of_unclosed hx' (ho'.2 ho) hr' (mt hc'.1 hc)]
      exact missing_alike _ hleft

end Prototype

namespace Parser

variable {p : Parser}

/-- What one parser reads, and what it leaves, is what another one does, but for places. -/
def ReadsAlike (T : Scanned → Scanned → Prop) {α : Type} (move : α → α)
    (x x' : Except Failure α × Parser) : Prop :=
  Agrees T move x.1 x'.1 ∧ x.2.upcoming.Paired T x'.2.upcoming

theorem expression_alike (hT : p.rules.Pairs m T) (h : p.upcoming.Paired T u) :
    ReadsAlike T (Node.relocate m) p.expression { p with upcoming := u }.expression := by
  obtain ⟨hr, hrest, -⟩ := Expression.Reader.runOn_alike hT p.upcoming.last_lexeme h.last h.tokens
    (Expression.Reader.begun_expression p.rules p.opened)
  exact ⟨hr, h.withTokens hrest⟩

theorem next_prototype_alike (hT : p.rules.Pairs m T) (h : p.upcoming.Paired T u) :
    ReadsAlike T (Prototype.relocate m) p.next.prototype
      { p with upcoming := u }.next.prototype :=
  Prototype.read_alike hT h.advance

theorem external_alike (hT : p.rules.Pairs m T) (h : p.upcoming.Paired T u) :
    ReadsAlike T (Node.relocate m) p.external { p with upcoming := u }.external := by
  obtain ⟨hr, hrest⟩ := next_prototype_alike hT h
  exact ⟨hr.map fun _ => rfl, hrest⟩

theorem definition_alike (hT : p.rules.Pairs m T) (h : p.upcoming.Paired T u) :
    ReadsAlike T (Node.relocate m) p.definition { p with upcoming := u }.definition := by
  have hp := next_prototype_alike hT h
  rcases hq : p.next.prototype with ⟨x, q⟩
  rcases hq' : ({ p with upcoming := u } : Parser).next.prototype with ⟨x', q'⟩
  rw [hq, hq'] at hp
  obtain ⟨hr, hrest⟩ := hp
  dsimp only at hr hrest
  cases hr with
  | error hfault ht =>
    rw [definition_of_error hq, definition_of_error hq']
    exact ⟨.error hfault ht, hrest⟩
  | ok proto =>
    have hk : q' = { q with upcoming := q'.upcoming } := by
      rw [prototype_keeps hq, prototype_keeps hq']
    have hTq : q.rules.Pairs m T := by
      rw [prototype_keeps hq]
      exact hT
    obtain ⟨hb, hrest'⟩ := expression_alike hTq hrest
    rw [definition_of_ok hq, definition_of_ok hq', h.location hT, hk]
    exact ⟨hb.map fun _ => rfl, hrest'⟩

theorem topLevelExpression_alike (hT : p.rules.Pairs m T) (h : p.upcoming.Paired T u) :
    ReadsAlike T (Node.relocate m) p.topLevelExpression
      { p with upcoming := u }.topLevelExpression := by
  obtain ⟨hb, hrest⟩ := expression_alike hT h
  refine ⟨?_, hrest⟩
  simp only [topLevelExpression, h.location hT]
  exact hb.map fun _ => rfl

/-- Where tokens are read alike, so are forms. -/
theorem form_alike (hT : p.rules.Pairs m T) (h : p.upcoming.Paired T u) (kind : FormKind) :
    ReadsAlike T (Node.relocate m) (p.form kind) ({ p with upcoming := u }.form kind) :=
  match kind with
  | .definition => definition_alike hT h
  | .external => external_alike hT h
  | .expression => topLevelExpression_alike hT h

end Parser

end Alike

end OperatorGrammar
