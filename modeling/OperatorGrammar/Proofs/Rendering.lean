import OperatorGrammar.Node.SExpression
import OperatorGrammar.Proofs.Number.Text
import OperatorGrammar.Proofs.Obstacle
import OperatorGrammar.Proofs.SExpression
import OperatorGrammar.Proofs.Shape

/-!
Trees told apart by their texts. The text of a tree is an s-expression, and of a tree that a run
hands out the s-expression gives the tree away: its words say what kind of node stands where. Two
such trees with one text are equal, but for one thing: a number past all finite ones is written like
a name. Main statements: `Node.sexprOn_eq`, what the text of any tree is, and
`Session.same_of_sexpr_eq`.
-/

namespace OperatorGrammar

open Refusal

/-- Whether a value is the number above all finite ones. -/
def Value.isInfinite : Value → Bool
  | .number (.signed false m) => !m.isFinite
  | _ => false

theorem Value.compact_of_isInfinite {v : Value} (h : v.isInfinite = true) : v.compact = "inf" := by
  unfold isInfinite at h
  split at h
  · exact Binary64.compactText_of_not_isFinite (by simpa using h)
  · cases h

/-- No literal has a sign. -/
theorem Literal.exists_value_eq (text : String) : ∃ m, value text = .signed false m := by
  unfold value
  split
  · exact ⟨_, rfl⟩
  · exact ⟨_, rfl⟩

namespace Node

/-! ## Trees as they are shown -/

mutual

/-- A tree with a reference in the place of each infinite number. -/
def asShown : Node → Node
  | number v l => if v.isInfinite then reference (.text "inf") l else number v l
  | reference x l => reference x l
  | binary o left right l => binary o left.asShown right.asShown l
  | call f as l => call f (asShownAll as) l
  | prototype p => prototype p
  | function p body l => function p body.asShown l
  | foreign v => foreign v

def asShownAll : List Node → List Node
  | [] => []
  | a :: as => a.asShown :: asShownAll as

end

theorem asShownAll_eq_map (as : List Node) : asShownAll as = as.map asShown := by
  induction as with
  | nil => rfl
  | cons a as ih => rw [asShownAll, ih, List.map_cons]

/-- Trees that are told apart by their texts: numbers are finite, and names and operators are what
they are in the grammar. -/
inductive IsShown : Node → Prop where
  | number {m : Magnitude} {l : Option Location} : m.isFinite = true →
    IsShown (.number (.number (.signed false m)) l)
  | reference {x : String} {l : Option Location} : IsName x → IsShown (.reference (.text x) l)
  | binary {c : Char} {left right : Node} {l : Option Location} :
    PrecedenceTable.isUsable c = true → IsShown left → IsShown right →
      IsShown (.binary c.toString left right l)
  | call {f : String} {as : List Node} {l : Option Location} : IsName f →
    (∀ a ∈ as, IsShown a) → IsShown (.call (.text f) as l)

theorem isName_inf : IsName "inf" where
  letters := ⟨'i', ['n', 'f'], rfl, by decide, List.all_eq_true.1 rfl⟩
  ne_def := by decide
  ne_extern := by decide

variable {R : Rules} {xs : List Lexeme} {depth : Nat}

theorem IsExpression.isShown {n : Node} (h : n.IsExpression R xs depth) : n.asShown.IsShown := by
  induction h with
  | @number depth text l _ _ =>
    obtain ⟨m, hm⟩ := Literal.exists_value_eq text
    rw [hm, asShown]
    split
    · exact .reference isName_inf
    · rename_i hf
      refine .number ?_
      simpa [Value.isInfinite] using hf
  | @reference depth x l hx => exact .reference hx
  | @binary depth c left right l hc _ _ ihl ihr =>
    exact .binary (PrecedenceTable.isUsable_of_precedence_pos hc) ihl ihr
  | @emptyCall depth f l hf => exact .call hf (List.forall_mem_nil _)
  | @call depth f as l hf _ _ ih =>
    rw [asShown, asShownAll_eq_map]
    exact .call hf (List.forall_mem_map.2 ih)

theorem IsExpression.isSoundUnder {n : Node} (h : n.IsExpression R xs depth) (above : List Node) :
    ∀ o ∈ n.occurrencesUnder above, o.node.IsSoundHere := by
  induction h generalizing above with
  | number | reference | emptyCall => exact isSoundUnder_of ⟨rfl, rfl⟩ (List.forall_mem_nil _)
  | binary _ _ _ ihl ihr =>
    exact isSoundUnder_of ⟨rfl, rfl⟩
      (List.forall_mem_cons.2 ⟨ihl _, List.forall_mem_singleton.2 (ihr _)⟩)
  | call _ _ _ ih => exact isSoundUnder_of ⟨rfl, rfl⟩ fun a ha => ih a ha _

/-! ## Trees as s-expressions -/

/-- Names in a list of their own. -/
def nameList (names : List String) : SExpression := .list (names.map fun x => .word x.toList)

mutual

/-- The s-expression that the text of a tree writes. A foreign value has none, and nothing stands
in its place. -/
def sExpression : Node → SExpression
  | number v _ => .word v.compact.toList
  | reference x _ => .word x.plain.toList
  | binary o left right _ => .list [.word o.toList, left.sExpression, right.sExpression]
  | call f as _ => .list (.word "call".toList :: .word f.plain.toList :: sExpressionAll as)
  | prototype p => .list [.word "extern".toList, .word p.name.toList, nameList p.parameters]
  | function p body _ =>
    if p.isAnonymous then .list [.word "expr".toList, body.sExpression]
    else .list [.word "def".toList, .word p.name.toList, nameList p.parameters, body.sExpression]
  | foreign _ => .list []

def sExpressionAll : List Node → List SExpression
  | [] => []
  | a :: as => a.sExpression :: sExpressionAll as

end

mutual

/-- The s-expression of a tree does not show which it is, an infinite number or a reference. -/
theorem sExpression_asShown : ∀ n : Node, n.asShown.sExpression = n.sExpression
  | number v l => by
    rw [asShown]
    split
    · rename_i h
      rw [sExpression, sExpression, Value.compact_of_isInfinite h]
      rfl
    · rfl
  | reference _ _ | prototype _ | foreign _ => rfl
  | binary _ left right _ => by
    simp only [asShown, sExpression, sExpression_asShown left, sExpression_asShown right]
  | call _ as _ => by simp only [asShown, sExpression, sExpressionAll_asShownAll as]
  | function _ body _ => by simp only [asShown, sExpression, sExpression_asShown body]

theorem sExpressionAll_asShownAll : ∀ as : List Node,
    sExpressionAll (asShownAll as) = sExpressionAll as
  | [] => rfl
  | a :: as => by
    simp only [asShownAll, sExpressionAll, sExpression_asShown a, sExpressionAll_asShownAll as]

end

theorem toList_intercalate (x : String) (xs : List String) :
    (" ".intercalate (x :: xs)).toList =
      x.toList ++ SExpression.spaced (xs.map fun x => .word x.toList) := by
  rw [String.toList_intercalate]
  induction xs generalizing x with
  | nil => simp [SExpression.spaced]
  | cons y ys ih =>
    rw [List.map_cons, List.map_cons, List.intercalate_cons_cons, ← List.map_cons, ih y]
    simp [SExpression.spaced, SExpression.chars]

theorem parameterList_eq (names : List String) :
    parameterList names = String.ofList (nameList names).chars := by
  apply String.toList_injective
  cases names with
  | nil => decide
  | cons x xs =>
    rw [parameterList, String.toList_append, String.toList_append, toList_intercalate]
    simp [nameList, SExpression.chars, SExpression.spaced]

/-! ## Texts -/

theorem sexprAllUnder_eq {k : Stack} {above as : List Node}
    (h : ∀ a ∈ as, a.sexprUnder k (above.map kind) =
      outcome (k.firstUnder (refused .notANode) above a) (String.ofList a.sExpression.chars)) :
    sexprAllUnder k (above.map kind) as = outcome (k.firstAmong (refused .notANode) above as)
      (String.ofList (SExpression.spaced (sExpressionAll as))) := by
  induction as with
  | nil => rfl
  | cons a as ih =>
    obtain ⟨ha, has⟩ := List.forall_mem_cons.1 h
    rw [sexprAllUnder, ha, ih has]
    refine outcome_bind (outcome_map (congrArg Except.ok (String.toList_injective ?_)))
    simp [sExpressionAll, SExpression.spaced]

/-- A tree has its s-expression for its text, unless there is an obstacle. -/
theorem sexprUnder_eq (k : Stack) (above : List Node) (n : Node) :
    n.sexprUnder k (above.map kind) =
      outcome (k.firstUnder (refused .notANode) above n) (String.ofList n.sExpression.chars) := by
  induction n using childrenInduction generalizing above with
  | below n ih =>
    have hbelow (c : Node) (hc : c ∈ n.children) := ih c hc (n :: above)
    rw [Stack.firstUnder_eq]
    cases n with
    | number v l =>
      rw [sexprUnder]
      refine Stack.enter_bind rfl ?_
      rw [Value.numeral_eq, sExpression, SExpression.chars, String.ofList_toList]
      exact congrArg (outcome · _) (Option.or_none).symm
    | reference x l =>
      rw [sexprUnder]
      refine Stack.enter_bind rfl ?_
      exact congrArg Except.ok (String.ofList_toList).symm
    | binary o left right l =>
      rw [sexprUnder]
      refine Stack.enter_bind rfl ?_
      refine (congrArg (· >>= _) (hbelow left left_mem_children)).trans (outcome_bind ?_)
      refine (congrArg (· >>= _) (hbelow right right_mem_children)).trans (outcome_bind ?_)
      refine congrArg Except.ok (String.toList_injective ?_)
      simp [sExpression, SExpression.chars, SExpression.spaced]
    | call f as l =>
      rw [sexprUnder]
      refine Stack.enter_bind rfl ?_
      have harguments := @sexprAllUnder_eq k (call f as l :: above) as hbelow
      refine (congrArg (· >>= _) harguments).trans (outcome_map ?_)
      refine congrArg Except.ok (String.toList_injective ?_)
      simp [sExpression, SExpression.chars, SExpression.spaced]
    | prototype p =>
      rw [sexprUnder]
      refine Stack.enter_bind rfl ?_
      rw [parameterList_eq]
      refine congrArg Except.ok (String.toList_injective ?_)
      simp [sExpression, SExpression.chars, SExpression.spaced]
    | function p body l =>
      rw [sexprUnder]
      refine Stack.enter_bind rfl ?_
      have hb := hbelow body body_mem_children
      rw [children, Stack.firstAmong, Stack.firstUnder_of_leaf rfl]
      refine Stack.enter_bind rfl ?_
      refine (congrArg (· >>= _) hb).trans (outcome_bind ?_)
      refine congrArg Except.ok (String.toList_injective ?_)
      rw [parameterList_eq, sExpression]
      split <;> simp [SExpression.chars, SExpression.spaced]
    | foreign v =>
      rw [sexprUnder]
      exact Stack.enter_bind rfl rfl

/-- The text of a tree on a stack, or the first obstacle. -/
theorem sexprOn_eq (k : Stack) (n : Node) :
    n.sexprOn k = outcome (k.first (refused .notANode) n) (String.ofList n.sExpression.chars) :=
  sexprUnder_eq k [] n

/-- Only the stack decides whether a sound tree has a text. -/
theorem IsSound.sexprOn_eq {n : Node} (h : n.IsSound) {k : Stack} (hk : k.HasRoom n) :
    n.sexprOn k = .ok (String.ofList n.sExpression.chars) := by
  rw [Node.sexprOn_eq, outcome_eq_ok_iff, Stack.first_refused_eq_none_iff]
  exact ⟨hk, h⟩

theorem IsSound.sexprOn_eq_exhausted {n : Node} (h : n.IsSound) {k : Stack}
    (hk : ¬ k.HasRoom n) : n.sexprOn k = .error .exhausted := by
  rw [Node.sexprOn_eq, outcome_eq_error_iff]
  exact Stack.first_refused_eq_exhausted h hk

theorem eq_of_sexprOn_eq_ok {k : Stack} {n : Node} {t : String} (h : n.sexprOn k = .ok t) :
    t = String.ofList n.sExpression.chars := by
  rw [Node.sexprOn_eq] at h
  exact eq_of_outcome_eq_ok h

/-! ## Words -/

theorem isWritten_keyword {x : String} (hne : x.toList ≠ [])
    (hx : x.toList.all SExpression.inWord = true) : (SExpression.word x.toList).IsWritten :=
  .word hne (List.all_eq_true.1 hx)

theorem isWritten_name {x : String} (h : IsName x) : (SExpression.word x.toList).IsWritten := by
  obtain ⟨c, cs, hx, hc, hcs⟩ := h.letters
  rw [hx]
  refine .word (List.cons_ne_nil _ _) (List.forall_mem_cons.2 ⟨?_, ?_⟩)
  · exact SExpression.inWord_of hc (by decide) (by decide) (by decide)
  · exact fun d hd => SExpression.inWord_of (hcs d hd) (by decide) (by decide) (by decide)

theorem isWritten_number {m : Magnitude} (h : m.isFinite = true) :
    (SExpression.word (Binary64.signed false m).compactText.toList).IsWritten := by
  have hnum := Binary64.isNumeral_compactText h
  refine .word ?_ ?_
  · obtain ⟨c, rest, hc, -⟩ := hnum.first
    rw [hc]
    exact List.cons_ne_nil _ _
  · intro c hc
    obtain hd | hd := hnum.parts c hc
    · exact SExpression.inWord_of hd (by decide) (by decide) (by decide)
    · simp only [List.mem_cons, List.not_mem_nil, or_false] at hd
      obtain rfl | rfl | rfl | rfl := hd <;> decide

/-- A finite number does not look like a name. -/
theorem compactText_ne_name {m : Magnitude} {x : String} (h : m.isFinite = true) (hx : IsName x) :
    (Binary64.signed false m).compactText ≠ x := by
  rintro rfl
  obtain ⟨c, rest, hfirst, hdigit⟩ := (Binary64.isNumeral_compactText h).first
  obtain ⟨d, cs, hletters, hletter, -⟩ := hx.letters
  obtain rfl : c = d := (List.cons.inj (hfirst.symm.trans hletters)).1
  rw [isLetter_of_isDigit hdigit] at hletter
  cases hletter

theorem forall_mem_sExpressionAll {p : SExpression → Prop} {as : List Node}
    (h : ∀ a ∈ as, p a.sExpression) : ∀ e ∈ sExpressionAll as, p e := by
  induction as with
  | nil => exact List.forall_mem_nil _
  | cons a as ih =>
    obtain ⟨ha, has⟩ := List.forall_mem_cons.1 h
    exact List.forall_mem_cons.2 ⟨ha, ih has⟩

theorem IsShown.isWritten {n : Node} (h : n.IsShown) : n.sExpression.IsWritten := by
  induction h with
  | @number m l hm => exact isWritten_number hm
  | @reference x l hx => exact isWritten_name hx
  | @binary c left right l hc _ _ ihl ihr =>
    have hop : (SExpression.word c.toString.toList).IsWritten := by
      rw [Char.toString_eq_singleton, String.toList_singleton]
      refine .word (List.cons_ne_nil _ _) (List.forall_mem_singleton.2 ?_)
      exact SExpression.inWord_of hc (by decide) (by decide) (by decide)
    exact .list (List.forall_mem_cons.2 ⟨hop, List.forall_mem_cons.2 ⟨ihl,
      List.forall_mem_singleton.2 ihr⟩⟩)
  | @call f as l hf _ ih =>
    exact .list (List.forall_mem_cons.2 ⟨isWritten_keyword (by decide) (by decide),
      List.forall_mem_cons.2 ⟨isWritten_name hf, forall_mem_sExpressionAll ih⟩⟩)

/-! ## Telling trees apart -/

/-- Lists of trees are told apart if the trees in them are. -/
theorem sExpressionAll_inj {as bs : List Node}
    (h : ∀ a ∈ as, ∀ b ∈ bs, a.sExpression = b.sExpression ↔ a.same b = true) :
    sExpressionAll as = sExpressionAll bs ↔ sameAll as bs = true := by
  induction as generalizing bs with
  | nil =>
    cases bs with
    | nil => simp [sameAll]
    | cons b bs => simp [sExpressionAll, sameAll]
  | cons a as ih =>
    cases bs with
    | nil => simp [sExpressionAll, sameAll]
    | cons b bs =>
      have hhead := h a List.mem_cons_self b List.mem_cons_self
      have htail := ih fun c hc d hd =>
        h c (List.mem_cons_of_mem _ hc) d (List.mem_cons_of_mem _ hd)
      simp [sExpressionAll, sameAll, hhead, htail]

/-- The s-expression tells what a tree is. -/
theorem IsShown.sExpression_inj {a b : Node} (ha : a.IsShown) (hb : b.IsShown) :
    a.sExpression = b.sExpression ↔ a.same b = true := by
  induction ha generalizing b with
  | @number m l hm =>
    cases hb with
    | @number m' l' hm' =>
      simp [sExpression, same, Value.same, Value.compact, Binary64.numEq, String.toList_inj,
        Binary64.compactText_inj]
    | @reference x l' hx =>
      have := compactText_ne_name hm hx
      simp [sExpression, same, Value.compact, Value.plain, String.toList_inj, this]
    | @binary c left right l' hc hl hr => simp [sExpression, same]
    | @call f as l' hf has => simp [sExpression, same]
  | @reference x l hx =>
    cases hb with
    | @number m' l' hm' =>
      have := (compactText_ne_name hm' hx).symm
      simp [sExpression, same, Value.compact, Value.plain, String.toList_inj, this]
    | @reference y l' hy =>
      simp [sExpression, same, Value.same, Value.plain, String.toList_inj]
    | @binary c left right l' hc hl hr => simp [sExpression, same]
    | @call f as l' hf has => simp [sExpression, same]
  | @binary c left right l hc _ _ ihl ihr =>
    cases hb with
    | @number m' l' hm' => simp [sExpression, same]
    | @reference y l' hy => simp [sExpression, same]
    | @binary c' left' right' l' hc' hl hr =>
      simp [sExpression, same, ihl hl, ihr hr, and_assoc]
    | @call f as l' hf has => simp [sExpression, same]
  | @call f as l hf has ih =>
    cases hb with
    | @number m' l' hm' => simp [sExpression, same]
    | @reference y l' hy => simp [sExpression, same]
    | @binary c' left' right' l' hc' hl hr => simp [sExpression, same]
    | @call g bs l' hg hbs =>
      have hall := sExpressionAll_inj fun a ha b hb => ih a ha (hbs b hb)
      simp [sExpression, same, Value.same, Value.plain, String.toList_inj, hall]

end Node

/-! ## Trees of forms -/

namespace Prototype

variable {p q : Prototype}

theorem same_iff : p.same q = true ↔ p.name = q.name ∧ p.parameters = q.parameters := by
  simp [same]

theorem same_anonymous (l m : Option Location) : (anonymous l).same (anonymous m) = true := rfl

/-- No named prototype is equal to the anonymous one. -/
theorem IsNamed.not_same_anonymous (h : p.IsNamed) (l : Option Location) :
    ¬ p.same (anonymous l) = true ∧ ¬ (anonymous l).same p = true := by
  rw [same_iff, same_iff]
  exact ⟨fun hs => h.name.ne_empty hs.1, fun hs => h.name.ne_empty hs.1.symm⟩

end Prototype

namespace Node

theorem nameList_inj {xs ys : List String} : nameList xs = nameList ys ↔ xs = ys := by
  refine ⟨?_, fun h => h ▸ rfl⟩
  intro h
  refine List.map_injective_iff.2 ?_ (SExpression.list.inj h)
  intro x y hxy
  exact String.toList_injective (SExpression.word.inj hxy)

theorem sExpression_definition {p : Prototype} (hp : p.IsNamed) (body : Node)
    (l : Option Location) : (function p body l).sExpression =
      .list [.word "def".toList, .word p.name.toList, nameList p.parameters, body.sExpression] := by
  rw [sExpression, if_neg (by simp [hp.isAnonymous])]

theorem sExpression_expression (body : Node) (l m : Option Location) :
    (function (.anonymous m) body l).sExpression =
      .list [.word "expr".toList, body.sExpression] := rfl

end Node

namespace FormKind

open Node

variable {R R' : Rules} {xs ys : List Lexeme} {kind kind' : FormKind} {n m : Node}

theorem isWritten_nameList {names : List String} (h : ∀ x ∈ names, IsName x) :
    (nameList names).IsWritten :=
  .list (List.forall_mem_map.2 fun x hx => isWritten_name (h x hx))

theorem Gives.isWritten (h : kind.Gives R xs n) : n.asShown.sExpression.IsWritten := by
  cases h with
  | @definition p body l hp hb =>
    rw [asShown, sExpression_definition hp]
    exact .list (List.forall_mem_cons.2 ⟨isWritten_keyword (by decide) (by decide),
      List.forall_mem_cons.2 ⟨isWritten_name hp.name, List.forall_mem_cons.2
        ⟨isWritten_nameList hp.parameters, List.forall_mem_singleton.2 hb.isShown.isWritten⟩⟩⟩)
  | @external p hp =>
    exact .list (List.forall_mem_cons.2 ⟨isWritten_keyword (by decide) (by decide),
      List.forall_mem_cons.2 ⟨isWritten_name hp.name,
        List.forall_mem_singleton.2 (isWritten_nameList hp.parameters)⟩⟩)
  | @expression l l' body hb =>
    exact .list (List.forall_mem_cons.2 ⟨isWritten_keyword (by decide) (by decide),
      List.forall_mem_singleton.2 hb.isShown.isWritten⟩)

/-- A form's tree is sound. -/
theorem Gives.isSound (h : kind.Gives R xs n) : n.IsSound := by
  have hprototype (p : Prototype) (above : List Node) :
      ∀ o ∈ (prototype p).occurrencesUnder above, o.node.IsSoundHere :=
    isSoundUnder_of ⟨rfl, rfl⟩ (List.forall_mem_nil _)
  have hfunction {p : Prototype} {body : Node} {l : Option Location} {depth : Nat}
      (hb : body.IsExpression R xs depth) : (function p body l).IsSound :=
    isSoundUnder_of ⟨rfl, rfl⟩ (List.forall_mem_cons.2
      ⟨hprototype p _, List.forall_mem_singleton.2 (hb.isSoundUnder _)⟩)
  cases h with
  | definition _ hb => exact hfunction hb
  | external _ => exact hprototype _ []
  | expression hb => exact hfunction hb

/-- The first word tells the kind of form, and what follows tells its parts. -/
theorem Gives.sExpression_inj (h : kind.Gives R xs n) (h' : kind'.Gives R' ys m) :
    n.asShown.sExpression = m.asShown.sExpression ↔ n.asShown.same m.asShown = true := by
  cases h with
  | @definition p body l hp hb =>
    rw [asShown, sExpression_definition hp]
    cases h' with
    | @definition q body' l' hq hb' =>
      rw [asShown, sExpression_definition hq]
      simp [same, Prototype.same_iff, String.toList_inj, nameList_inj,
        hb.isShown.sExpression_inj hb'.isShown, and_assoc]
    | @external q hq => simp [asShown, sExpression, same]
    | @expression l' m' body' hb' =>
      rw [asShown, sExpression_expression]
      simp [same, (hp.not_same_anonymous l').1]
  | @external p hp =>
    cases h' with
    | @definition q body' l' hq hb' =>
      simp only [asShown]
      rw [sExpression_definition hq]
      simp [sExpression, same]
    | @external q hq =>
      simp [asShown, sExpression, same, Prototype.same_iff, String.toList_inj, nameList_inj]
    | @expression l' m' body' hb' =>
      simp only [asShown]
      rw [sExpression_expression]
      simp [sExpression, same]
  | @expression l m body hb =>
    rw [asShown, sExpression_expression]
    cases h' with
    | @definition q body' l' hq hb' =>
      rw [asShown, sExpression_definition hq]
      simp [same, (hq.not_same_anonymous l).2]
    | @external q hq => simp [asShown, sExpression, same]
    | @expression l' m' body' hb' =>
      rw [asShown, sExpression_expression]
      simp [same, Prototype.same_anonymous, hb.isShown.sExpression_inj hb'.isShown]

end FormKind

/-! ## Runs -/

namespace Session

variable {o o' : Options} {file file' : String} {answers answers' : List (Option Char)}
  {remembersEnd remembersEnd' : Bool} {s s' : Session} {r r' : FormResult} {n n' : Node}

/-- What a run under any options hands out is a tree of a form. -/
theorem exists_gives (h : ofOptions o file (.ofAnswers answers remembersEnd) = .ok s)
    (hr : r ∈ s.results) (hn : r.outcome = .ok n) : ∃ R xs, r.kind.Gives R xs n := by
  obtain ⟨R, hR, rfl⟩ := Except.map_eq_ok_iff.1 h
  have hs := start_isShaped R o.maxErrors file answers remembersEnd
  exact ⟨R, _, hs.trees r hr n hn⟩

/-- Two trees that runs hand out, be it one run or two, are equal if they have the same text, where
an infinite number counts as the reference it looks like. How much room the stacks have makes no
difference to that. -/
theorem same_of_sexpr_eq (h : ofOptions o file (.ofAnswers answers remembersEnd) = .ok s)
    (h' : ofOptions o' file' (.ofAnswers answers' remembersEnd') = .ok s')
    (hr : r ∈ s.results) (hr' : r' ∈ s'.results) (hn : r.outcome = .ok n)
    (hn' : r'.outcome = .ok n') {k k' : Stack} {t : String} (ht : n.sexprOn k = .ok t)
    (ht' : n'.sexprOn k' = .ok t) : n.asShown.same n'.asShown = true := by
  obtain ⟨R, xs, hg⟩ := exists_gives h hr hn
  obtain ⟨R', ys, hg'⟩ := exists_gives h' hr' hn'
  have hchars : n.sExpression.chars = n'.sExpression.chars :=
    String.ofList_inj.1
      ((Node.eq_of_sexprOn_eq_ok ht).symm.trans (Node.eq_of_sexprOn_eq_ok ht'))
  rw [← Node.sExpression_asShown n, ← Node.sExpression_asShown n',
    SExpression.chars_inj hg.isWritten hg'.isWritten] at hchars
  exact (hg.sExpression_inj hg').1 hchars

theorem exists_tree_of_any {p : Node → Bool}
    (h : (s.results.any fun r => r.outcome.toOption.any p) = true) :
    ∃ r ∈ s.results, ∃ n, r.outcome = .ok n ∧ p n = true := by
  obtain ⟨⟨kind, outcome⟩, hr, hany⟩ := List.any_eq_true.1 h
  cases outcome with
  | error f => cases hany
  | ok n => exact ⟨_, hr, n, rfl, hany⟩

theorem eq_ok_of_toOption {e : Except Refusal String} {t : String} (h : e.toOption = some t) :
    e = .ok t := by
  cases e with
  | error r => cases h
  | ok u => exact congrArg Except.ok (Option.some.inj h)

/-- Two runs under different rules, one of which has more parentheses to read, and one of the stacks
has just enough room. -/
theorem same_of_parenthesized :
    ∃ s s', ofOptions .standard "p" (.ofAnswers ("f(x, 2.50)".toList.map some) true) = .ok s ∧
      ofOptions { Options.standard with maxDepth := 5 } "q"
        (.ofAnswers ("(f((x),2.5));".toList.map some) false) = .ok s' ∧
      ∃ r ∈ s.results, ∃ r' ∈ s'.results, ∃ n n', r.outcome = .ok n ∧ r'.outcome = .ok n' ∧
        n.sexprOn (.levels 3) = .ok "(expr (call f x 2.5))" ∧
        n'.sexprOn .unbounded = .ok "(expr (call f x 2.5))" ∧
        n.asShown.same n'.asShown = true := by
  have h : ofOptions .standard "p" (.ofAnswers ("f(x, 2.50)".toList.map some) true) =
      .ok (start ⟨PrecedenceTable.standard.freeze, 256, true⟩ Collector.standardMaxErrors "p"
        (.ofAnswers ("f(x, 2.50)".toList.map some) true)) := rfl
  have h' : ofOptions { Options.standard with maxDepth := 5 } "q"
        (.ofAnswers ("(f((x),2.5));".toList.map some) false) =
      .ok (start ⟨PrecedenceTable.standard.freeze, 5, true⟩ Collector.standardMaxErrors "q"
        (.ofAnswers ("(f((x),2.5));".toList.map some) false)) := rfl
  obtain ⟨r, hr, n, hn, ht⟩ := exists_tree_of_any (s := start
    ⟨PrecedenceTable.standard.freeze, 256, true⟩ Collector.standardMaxErrors "p"
    (.ofAnswers ("f(x, 2.50)".toList.map some) true))
    (p := fun n => (n.sexprOn (.levels 3)).toOption == some "(expr (call f x 2.5))")
    (by decide +kernel)
  obtain ⟨r', hr', n', hn', ht'⟩ := exists_tree_of_any (s := start
    ⟨PrecedenceTable.standard.freeze, 5, true⟩ Collector.standardMaxErrors "q"
    (.ofAnswers ("(f((x),2.5));".toList.map some) false))
    (p := fun n => (n.sexprOn .unbounded).toOption == some "(expr (call f x 2.5))")
    (by decide +kernel)
  have htext := eq_ok_of_toOption (eq_of_beq ht)
  have htext' := eq_ok_of_toOption (eq_of_beq ht')
  exact ⟨_, _, h, h', r, hr, r', hr', n, n', hn, hn', htext, htext',
    same_of_sexpr_eq h h' hr hr' hn hn' htext htext'⟩

/-- A number that is too great for any finite value is written like the name of infinity. -/
theorem sexpr_of_overflow :
    ¬ ∀ text text' s s', ofOptions .standard "<input>" (.ofString text) = .ok s →
      ofOptions .standard "<input>" (.ofString text') = .ok s' →
      ∀ r ∈ s.results, ∀ r' ∈ s'.results, ∀ n n' t, r.outcome = .ok n → r'.outcome = .ok n' →
        n.sexpr = .ok t → n'.sexpr = .ok t → n.same n' = true := by
  intro h
  have hsame := h "inf" (String.ofList ('1' :: List.replicate 309 '0')) _ _ rfl rfl
  have hdigits : Source.ofString (String.ofList ('1' :: List.replicate 309 '0')) =
      .ofList ('1' :: List.replicate 309 '0') := by
    rw [Source.ofString, String.toList_ofList]
  rw [hdigits] at hsame
  have hrun : ((start ⟨PrecedenceTable.standard.freeze, 256, true⟩ Collector.standardMaxErrors
      "<input>" (.ofString "inf")).results.any fun r => r.outcome.toOption.any fun n =>
      (start ⟨PrecedenceTable.standard.freeze, 256, true⟩ Collector.standardMaxErrors
        "<input>" (.ofList ('1' :: List.replicate 309 '0'))).results.any fun r' =>
          r'.outcome.toOption.any fun n' => n.sexpr.toOption == some "(expr inf)" &&
            n'.sexpr.toOption == some "(expr inf)" && !n.same n') = true := by
    decide +kernel
  obtain ⟨r, hr, n, hn, hrest⟩ := exists_tree_of_any hrun
  obtain ⟨r', hr', n', hn', hrest'⟩ := exists_tree_of_any hrest
  simp only [Bool.and_eq_true, beq_iff_eq, Bool.not_eq_true'] at hrest'
  obtain ⟨⟨ht, ht'⟩, hne⟩ := hrest'
  rw [hsame r hr r' hr' n n' _ hn hn' (eq_ok_of_toOption ht) (eq_ok_of_toOption ht')] at hne
  cases hne

end Session

end OperatorGrammar
