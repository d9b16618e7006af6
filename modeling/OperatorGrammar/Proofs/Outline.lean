import OperatorGrammar.Node.Outline
import OperatorGrammar.Proofs.Indentation
import OperatorGrammar.Proofs.Rendering

/-!
Trees told apart by their outlines. A line of an outline says what kind of node stands there, and
what its name or its number is; what is below a node is seen from the indentation. So two trees with
one outline are equal. Main statements: `Node.outlineUnder_writes`, what a printer does with any
tree, and `Session.outline_eq_iff`.
-/

namespace OperatorGrammar

open Refusal Scanner

/-! ## Headings -/

/-- What the lines of an outline say, apart from their indentation. -/
inductive Heading where
  | number (v : Value)
  | reference (name : Value)
  | binary (operator : String)
  | call (callee : Value) (arguments : Nat)
  | prototype (name : String) (parameters : List String)
  | function

namespace Heading

def text : Heading → String
  | number v => "Number " ++ v.compact
  | reference name => "Variable " ++ name.plain
  | binary operator => "BinaryOp '" ++ operator ++ "'"
  | call callee arguments => "Call " ++ callee.plain ++ " (" ++ toString arguments ++ " args)"
  | prototype name parameters => Node.outlinePrototype ⟨name, parameters, none⟩
  | function => "Function"

/-- The letter that a heading starts with. -/
def initial : Heading → Char
  | number _ => 'N'
  | reference _ => 'V'
  | binary _ => 'B'
  | call .. => 'C'
  | prototype .. => 'P'
  | function => 'F'

/-- Headings of trees that have been read. The anonymous prototype has no name. -/
inductive IsWritten : Heading → Prop where
  | number {m : Magnitude} : IsWritten (.number (.number (.signed false m)))
  | reference {x : String} : IsName x → IsWritten (.reference (.text x))
  | binary {c : Char} : PrecedenceTable.isUsable c = true → IsWritten (.binary c.toString)
  | call {f : String} (arguments : Nat) : IsName f → IsWritten (.call (.text f) arguments)
  | prototype {x : String} {xs : List String} : x = "" ∨ IsName x → (∀ y ∈ xs, IsName y) →
    IsWritten (.prototype x xs)
  | function : IsWritten .function

variable {a b : Heading} {c : Char} {x y : String} {xs ys : List String}

theorem exists_text_eq (a : Heading) : ∃ cs, a.text.toList = a.initial :: cs := by
  cases a <;> simp [text, initial, Node.outlinePrototype]

/-- Headings with the same text are of the same kind. -/
theorem initial_eq_of_text_eq (h : a.text = b.text) : a.initial = b.initial := by
  obtain ⟨cs, ha⟩ := a.exists_text_eq
  obtain ⟨ds, hb⟩ := b.exists_text_eq
  rw [h, hb] at ha
  exact (List.cons.inj ha).1.symm

/-! ## Names -/

theorem not_mem_name (h : IsName x) (hc : isLetterOrDigit c = false) : c ∉ x.toList := by
  obtain ⟨d, cs, hx, hd, hcs⟩ := h.letters
  rw [hx]
  intro hmem
  rcases List.mem_cons.1 hmem with rfl | hmem
  · rw [isLetterOrDigit_of_isLetter hd] at hc
    cases hc
  · rw [hcs c hmem] at hc
    cases hc

theorem isPiece_name (h : IsName x) : IsPiece ',' x :=
  ⟨h.ne_empty, not_mem_name h (by decide)⟩

/-- What comes in front of a character is told apart if the character is not in it. -/
theorem append_cons_inj {xs ys r s : List Char} (hx : c ∉ xs) (hy : c ∉ ys)
    (h : xs ++ c :: r = ys ++ c :: s) : xs = ys ∧ r = s := by
  have other {zs : List Char} (hz : c ∉ zs) : ∀ d ∈ zs, (d != c) = true := by
    intro d hd
    simp only [bne_iff_ne]
    rintro rfl
    exact hz hd
  have ends (r : List Char) : ∀ d ∈ (c :: r).head?, (d != c) = false := by
    intro d hd
    obtain rfl := Option.some.inj hd
    simp
  obtain ⟨hxy, hrs⟩ := append_inj_of_ends (other hx) (other hy) (ends r) (ends s) h
  exact ⟨hxy, (List.cons.inj hrs).2⟩

/-- The name of a prototype as its heading shows it. -/
def shownName (x : String) : String := if x = "" then "<anonymous>" else x

theorem not_mem_shownName (h : x = "" ∨ IsName x) (hc : isLetterOrDigit c = false)
    (hlt : c ∉ "<anonymous>".toList) : c ∉ (shownName x).toList := by
  rcases h with rfl | h
  · exact hlt
  · rw [shownName, if_neg h.ne_empty]
    exact not_mem_name h hc

/-- No name looks like the missing one. -/
theorem shownName_inj (hx : x = "" ∨ IsName x) (hy : y = "" ∨ IsName y)
    (h : shownName x = shownName y) : x = y := by
  have hne {z : String} (hz : IsName z) : "<anonymous>" ≠ z := by
    rintro rfl
    exact not_mem_name hz (c := '<') (by decide) (by decide)
  rcases hx with rfl | hx <;> rcases hy with rfl | hy
  · rfl
  · rw [shownName, shownName, if_pos rfl, if_neg hy.ne_empty] at h
    exact absurd h (hne hy)
  · rw [shownName, shownName, if_pos rfl, if_neg hx.ne_empty] at h
    exact absurd h.symm (hne hx)
  · rwa [shownName, shownName, if_neg hx.ne_empty, if_neg hy.ne_empty] at h

theorem text_prototype (x : String) (xs : List String) :
    (prototype x xs).text = "Prototype " ++ shownName x ++ "(" ++ ", ".intercalate xs ++ ")" := by
  simp [text, Node.outlinePrototype, Prototype.isAnonymous, shownName]

/-- The heading of a prototype tells its name and its parameters. -/
theorem text_prototype_inj (hx : x = "" ∨ IsName x) (hy : y = "" ∨ IsName y)
    (hxs : ∀ z ∈ xs, IsName z) (hys : ∀ z ∈ ys, IsName z)
    (h : (prototype x xs).text = (prototype y ys).text) : x = y ∧ xs = ys := by
  have hchars := congrArg String.toList h
  simp only [text_prototype, String.append_assoc, String.toList_append] at hchars
  obtain ⟨hname, hrest⟩ := append_cons_inj (not_mem_shownName hx (by decide) (by decide))
    (not_mem_shownName hy (by decide) (by decide)) (List.append_cancel_left hchars)
  refine ⟨shownName_inj hx hy (String.toList_injective hname), ?_⟩
  refine (intercalate_inj (show ", ".toList = [',', ' '] from rfl) (by decide)
    (fun z hz => isPiece_name (hxs z hz)) (fun z hz => isPiece_name (hys z hz))).1 ?_
  exact String.toList_injective (List.append_cancel_right hrest)

theorem text_call_inj {f g : String} {k m : Nat} (hf : IsName f) (hg : IsName g)
    (h : (call (.text f) k).text = (call (.text g) m).text) : f = g ∧ k = m := by
  have hchars := congrArg String.toList h
  simp only [text, Value.plain, String.append_assoc, String.toList_append] at hchars
  obtain ⟨hname, hrest⟩ := append_cons_inj (not_mem_name hf (by decide))
    (not_mem_name hg (by decide)) (List.append_cancel_left hchars)
  have hdigits : (toString k).toList = (toString m).toList :=
    List.append_cancel_right (List.cons.inj hrest).2
  rw [Nat.toString_eq_repr, Nat.toString_eq_repr, Nat.toList_repr, Nat.toList_repr] at hdigits
  refine ⟨String.toList_injective hname, ?_⟩
  rw [← Text.digitsValue_toDigits k, hdigits, Text.digitsValue_toDigits]

/-- The heading tells all that it is made from. -/
theorem text_inj (ha : a.IsWritten) (hb : b.IsWritten) : a.text = b.text ↔ a = b := by
  refine ⟨?_, fun h => h ▸ rfl⟩
  intro h
  have hinitial := initial_eq_of_text_eq h
  cases ha with
  | number =>
    cases hb with
    | number => simpa [text, Value.compact, Binary64.compactText_inj] using h
    | _ => cases hinitial
  | reference hx =>
    cases hb with
    | reference hy => simpa [text, Value.plain] using h
    | _ => cases hinitial
  | binary hc =>
    cases hb with
    | binary hd => simpa [text] using h
    | _ => cases hinitial
  | call k hf =>
    cases hb with
    | call m hg =>
      obtain ⟨rfl, rfl⟩ := text_call_inj hf hg h
      rfl
    | _ => cases hinitial
  | prototype hx hxs =>
    cases hb with
    | prototype hy hys =>
      obtain ⟨rfl, rfl⟩ := text_prototype_inj hx hy hxs hys h
      rfl
    | _ => cases hinitial
  | function =>
    cases hb with
    | function => rfl
    | _ => cases hinitial

theorem isPlain_shownName (h : x = "" ∨ IsName x) : IsPlain (shownName x) := by
  rcases h with rfl | h
  · decide
  · rw [shownName, if_neg h.ne_empty]
    exact isPlain_name h

theorem IsWritten.isPlain (h : a.IsWritten) : IsPlain a.text := by
  cases h with
  | @number m => exact .append (by decide) (isPlain_compactText m)
  | reference hx => exact .append (by decide) (isPlain_name hx)
  | binary hc => exact ((IsPlain.append (by decide) (isPlain_operator hc)).append (by decide))
  | call k hf =>
    have hname := IsPlain.append (x := "Call ") (by decide) (isPlain_name hf)
    exact ((hname.append (by decide)).append (isPlain_digits k)).append (by decide)
  | @prototype x xs hx hxs =>
    have hname := IsPlain.append (x := "Prototype ") (by decide) (isPlain_shownName hx)
    have hparameters := IsPlain.intercalate (y := ", ") (by decide)
      fun z hz => isPlain_name (hxs z hz)
    rw [text_prototype]
    exact ((hname.append (by decide)).append hparameters).append (by decide)
  | function => decide

theorem initial_ne_blank (a : Heading) : a.initial ≠ ' ' := by
  cases a <;> exact nofun

theorem IsWritten.isHeading (h : a.IsWritten) : IsHeading a.text where
  first := by
    obtain ⟨cs, hcs⟩ := a.exists_text_eq
    exact ⟨a.initial, cs, hcs, a.initial_ne_blank⟩
  plain := h.isPlain

end Heading

/-! ## Outlines of trees -/

namespace OutlinePrinter

variable {out : OutlinePrinter} {ls ms : List (Nat × String)}

/-- Writes lines that are indented as they say. -/
def writeLines (out : OutlinePrinter) (ls : List (Nat × String)) : OutlinePrinter :=
  { out with written := (ls.map indented).reverse ++ out.written }

theorem writeLines_append : out.writeLines (ls ++ ms) = (out.writeLines ls).writeLines ms := by
  simp [writeLines]

theorem text_writeLines (h : out.written = []) :
    (out.writeLines ls).text = "\n".intercalate (ls.map indented) := by
  simp [text, lines, writeLines, h]

end OutlinePrinter

namespace Printing

/-- What a printer does has an obstacle, or else it writes lines, indented from where the printer
stands, and leaves it there. -/
def Writes (act : Printing Unit) (obstacle : Option Refusal)
    (ls : Nat → List (Nat × String)) : Prop :=
  ∀ out : OutlinePrinter, (act.run out).1 = outcome obstacle () ∧
    (obstacle = none → (act.run out).2 = out.writeLines (ls out.indent))

variable {act next : Printing Unit} {first second : Option Refusal}
  {ls ms : Nat → List (Nat × String)}

theorem Writes.bind (h : Writes act first ls) (h' : Writes next second ms) :
    Writes (act >>= fun _ => next) (first.or second) fun depth => ls depth ++ ms depth := by
  intro out
  obtain ⟨hact, hlines⟩ := h out
  cases first with
  | some r =>
    rw [run_bind_error (Prod.ext hact rfl)]
    exact ⟨rfl, nofun⟩
  | none =>
    obtain ⟨hnext, hmore⟩ := h' (out.writeLines (ls out.indent))
    rw [run_bind_ok (Prod.ext hact (hlines rfl))]
    exact ⟨hnext, fun hs => (hmore hs).trans OutlinePrinter.writeLines_append.symm⟩

theorem Writes.congr (h : Writes act first ls) (hobstacle : first = second)
    (hlines : ∀ depth, ls depth = ms depth) : Writes act second ms := by
  rwa [← hobstacle, ← funext hlines]

/-- A printer that writes nothing. -/
theorem writes_pure : Writes (pure ()) none fun _ => [] := fun _ => ⟨rfl, fun _ => rfl⟩

/-- Of what is refused nothing is said about the lines. -/
theorem writes_of_error {r : Refusal} (h : ∀ out, (act.run out).1 = .error r) :
    Writes act (some r) ls := fun out => ⟨h out, nofun⟩

theorem writes_emit (text : String) : Writes (emit text) none fun depth => [(depth, text)] :=
  fun _ => ⟨rfl, fun _ => rfl⟩

/-- What is nested is written a step deeper, and behind it the printer stands where it stood. -/
theorem Writes.nested (h : Writes act first ls) :
    Writes (nested act) first fun depth => ls (depth + 1) := by
  intro out
  obtain ⟨hact, hlines⟩ := h out.deeper
  have hdeeper : (modify OutlinePrinter.deeper : Printing Unit).run out =
      (.ok (), out.deeper) := rfl
  rw [Printing.nested, run_bind_ok hdeeper]
  cases first with
  | some r =>
    rw [run_bind_error (Prod.ext hact rfl)]
    exact ⟨rfl, nofun⟩
  | none =>
    rw [run_bind_ok (Prod.ext hact (hlines rfl))]
    exact ⟨rfl, fun _ => rfl⟩

/-- A printer comes to a place, and goes on there if there is room. -/
theorem Writes.enter {k : Stack} {path : List TreeKind} {o : Occurrence}
    {f : Node → Option Refusal} (hp : path = o.path)
    (h : Writes act ((f o.node).or second) ls) :
    Writes (liftM (k.enter path) >>= fun _ => act) ((k.obstacle? f o).or second) ls := by
  intro out
  rw [hp, Stack.enter, Stack.obstacle?]
  split
  · exact h out
  · exact writes_of_error (fun _ => rfl) out

theorem writes_numeral (v : Value) :
    Writes (do emit ("Number " ++ (← v.numeral))) v.refusedAsNumeral
      fun depth => [(depth, "Number " ++ v.compact)] := by
  cases v with
  | number x => exact writes_emit _
  | _ => exact writes_of_error fun _ => rfl

end Printing

namespace Node

/-- What the first line of a tree says. A foreign value has none, and `function` stands for it. -/
def heading : Node → Heading
  | number v _ => .number v
  | reference x _ => .reference x
  | binary o _ _ _ => .binary o
  | call f as _ => .call f as.length
  | prototype p => .prototype p.name p.parameters
  | function .. | foreign _ => .function

mutual

/-- The outline of a tree. -/
def outlined : Node → Outline String
  | number v l => .entry (number v l).heading.text []
  | reference x l => .entry (reference x l).heading.text []
  | binary o left right l =>
    .entry (binary o left right l).heading.text [left.outlined, right.outlined]
  | call f as l => .entry (call f as l).heading.text (outlinedAll as)
  | prototype p => .entry (prototype p).heading.text []
  | function p body l => .entry (function p body l).heading.text
    [.entry (prototype p).heading.text [], body.outlined]
  | foreign v => .entry (foreign v).heading.text []

def outlinedAll : List Node → List (Outline String)
  | [] => []
  | a :: as => a.outlined :: outlinedAll as

end

/-- What stands below the first line of a tree. -/
def outlinedBelow : Node → List (Outline String)
  | binary _ left right _ => [left.outlined, right.outlined]
  | call _ as _ => outlinedAll as
  | function p body _ => [(prototype p).outlined, body.outlined]
  | number .. | reference .. | prototype .. | foreign _ => []

theorem outlined_eq (n : Node) : n.outlined = .entry n.heading.text n.outlinedBelow := by
  cases n <;> rfl

theorem outlined_eq_iff {a b : Node} (ha : a.heading.IsWritten) (hb : b.heading.IsWritten) :
    a.outlined = b.outlined ↔ a.heading = b.heading ∧ a.outlinedBelow = b.outlinedBelow := by
  rw [outlined_eq, outlined_eq, Outline.entry.injEq, Heading.text_inj ha hb]

variable {R R' : Rules} {xs ys : List Lexeme} {depth depth' : Nat}

open Printing

theorem outlineAllUnder_writes {k : Stack} {above as : List Node}
    (h : ∀ a ∈ as, Writes (a.outlineUnder k (above.map kind))
      (k.firstUnder (refused foreignRefusal) above a) a.outlined.lines) :
    Writes (outlineAllUnder k (above.map kind) as) (k.firstAmong (refused foreignRefusal) above as)
      fun depth => Outline.linesAll depth (outlinedAll as) := by
  induction as with
  | nil => exact writes_pure
  | cons a as ih =>
    obtain ⟨ha, has⟩ := List.forall_mem_cons.1 h
    rw [outlineAllUnder]
    exact ha.bind (ih has)

/-- Writing a tree writes the lines of its outline, unless there is an obstacle. -/
theorem outlineUnder_writes (k : Stack) (above : List Node) (n : Node) :
    Writes (n.outlineUnder k (above.map kind)) (k.firstUnder (refused foreignRefusal) above n)
      fun depth => n.outlined.lines depth := by
  induction n using childrenInduction generalizing above with
  | below n ih =>
    have hbelow (c : Node) (hc : c ∈ n.children) := ih c hc (n :: above)
    rw [Stack.firstUnder_eq]
    cases n with
    | number v l =>
      rw [outlineUnder]
      exact .enter rfl ((writes_numeral v).congr (Option.or_none).symm fun _ => rfl)
    | reference x l =>
      rw [outlineUnder]
      exact .enter rfl (writes_emit _)
    | binary o left right l =>
      rw [outlineUnder]
      have hl := hbelow left left_mem_children
      have hr := hbelow right right_mem_children
      refine .enter rfl (((writes_emit _).bind (hl.bind hr).nested).congr ?_ fun depth => ?_)
      · simp [Stack.firstAmong, children, refused]
      · simp [outlined, Outline.lines, Outline.linesAll, heading, Heading.text]
    | call f as l =>
      rw [outlineUnder]
      have harguments := @outlineAllUnder_writes k (call f as l :: above) as hbelow
      exact .enter rfl ((writes_emit _).bind harguments.nested)
    | prototype p =>
      rw [outlineUnder]
      exact .enter rfl (writes_emit _)
    | function p body l =>
      rw [outlineUnder]
      have hb := (writes_emit (outlinePrototype p)).bind (hbelow body body_mem_children)
      -- the prototype is no tree that the printer is handed, but it is come to as if it were one
      have hboth := Writes.enter (k := k) (o := ⟨prototype p, function p body l :: above⟩)
        (f := refused foreignRefusal) rfl hb
      refine .enter rfl (((writes_emit _).bind hboth.nested).congr ?_ fun depth => ?_)
      · have hprototype : (prototype p).children = [] := rfl
        simp [Stack.firstAmong, Stack.firstUnder_of_leaf hprototype, children, refused]
      · simp [outlined, Outline.lines, Outline.linesAll, heading, Heading.text, outlinePrototype,
          Prototype.isAnonymous]
    | foreign v =>
      rw [outlineUnder]
      refine .enter rfl ?_
      split <;> exact writes_of_error fun _ => rfl

theorem IsExpression.isWritten_heading {n : Node} (h : n.IsExpression R xs depth) :
    n.heading.IsWritten := by
  cases h with
  | @number depth text l _ _ =>
    obtain ⟨m, hm⟩ := Literal.exists_value_eq text
    rw [hm]
    exact .number
  | reference hx => exact .reference hx
  | binary hc _ _ => exact .binary (PrecedenceTable.isUsable_of_precedence_pos hc)
  | emptyCall hf => exact .call 0 hf
  | call hf _ _ => exact .call _ hf

theorem forall_mem_linesAll {p : Nat × String → Prop} {as : List Node} {k : Nat}
    (h : ∀ a ∈ as, ∀ l ∈ a.outlined.lines k, p l) :
    ∀ l ∈ Outline.linesAll k (outlinedAll as), p l := by
  induction as with
  | nil => exact List.forall_mem_nil _
  | cons a as ih =>
    obtain ⟨ha, has⟩ := List.forall_mem_cons.1 h
    exact List.forall_mem_append.2 ⟨ha, ih has⟩

theorem IsExpression.isHeading {n : Node} (h : n.IsExpression R xs depth) (k : Nat) :
    ∀ l ∈ n.outlined.lines k, IsHeading l.2 := by
  have hn := h.isWritten_heading.isHeading
  induction h generalizing k with
  | number | reference | emptyCall => exact List.forall_mem_singleton.2 hn
  | @binary depth c left right l hc hl hr ihl ihr =>
    exact List.forall_mem_cons.2 ⟨hn, List.forall_mem_append.2
      ⟨ihl (k + 1) hl.isWritten_heading.isHeading, List.forall_mem_append.2
        ⟨ihr (k + 1) hr.isWritten_heading.isHeading, List.forall_mem_nil _⟩⟩⟩
  | @call depth f as l hf hne has ih =>
    refine List.forall_mem_cons.2 ⟨hn, forall_mem_linesAll fun a ha => ?_⟩
    exact ih a ha (k + 1) (has a ha).isWritten_heading.isHeading

/-! ## Telling trees apart -/

/-- Lists of trees are told apart if the trees in them are. -/
theorem outlinedAll_inj {as bs : List Node}
    (h : ∀ a ∈ as, ∀ b ∈ bs, a.outlined = b.outlined ↔ a.same b = true) :
    outlinedAll as = outlinedAll bs ↔ sameAll as bs = true := by
  induction as generalizing bs with
  | nil =>
    cases bs with
    | nil => simp [sameAll]
    | cons b bs => simp [outlinedAll, sameAll]
  | cons a as ih =>
    cases bs with
    | nil => simp [outlinedAll, sameAll]
    | cons b bs =>
      have hhead := h a List.mem_cons_self b List.mem_cons_self
      have htail := ih fun c hc d hd =>
        h c (List.mem_cons_of_mem _ hc) d (List.mem_cons_of_mem _ hd)
      simp [outlinedAll, sameAll, hhead, htail]

theorem length_outlinedAll (as : List Node) : (outlinedAll as).length = as.length := by
  induction as with
  | nil => rfl
  | cons a as ih => rw [outlinedAll, List.length_cons, ih, List.length_cons]

/-- The outline of a call tells its name and its arguments. -/
theorem outlined_call_inj {f g : String} {as bs : List Node} {l l' : Option Location}
    (h : ∀ a ∈ as, ∀ b ∈ bs, a.outlined = b.outlined ↔ a.same b = true) :
    ((call (.text f) as l).heading = (call (.text g) bs l').heading ∧
      (call (.text f) as l).outlinedBelow = (call (.text g) bs l').outlinedBelow) ↔
      (call (.text f) as l).same (call (.text g) bs l') = true := by
  have hlength (he : outlinedAll as = outlinedAll bs) : as.length = bs.length := by
    rw [← length_outlinedAll as, he, length_outlinedAll]
  simp only [heading, outlinedBelow, same, Value.same, ← outlinedAll_inj h, Heading.call.injEq,
    Value.text.injEq, Bool.and_eq_true, beq_iff_eq]
  constructor
  · rintro ⟨⟨hname, -⟩, hall⟩
    exact ⟨hname, hall⟩
  · rintro ⟨hname, hall⟩
    exact ⟨⟨hname, hlength hall⟩, hall⟩

/-- The outline of an expression tells what it is. -/
theorem IsExpression.outlined_inj {a b : Node} (ha : a.IsExpression R xs depth)
    (hb : b.IsExpression R' ys depth') : a.outlined = b.outlined ↔ a.same b = true := by
  have hw := ha.isWritten_heading
  have hw' := hb.isWritten_heading
  induction ha generalizing b depth' with
  | @number depth text l _ _ =>
    rw [outlined_eq_iff hw hw']
    cases hb with
    | @number depth' text' l' _ _ =>
      obtain ⟨m, hm⟩ := Literal.exists_value_eq text
      obtain ⟨m', hm'⟩ := Literal.exists_value_eq text'
      simp [heading, outlinedBelow, same, Value.same, Binary64.numEq, hm, hm']
    | _ => simp [heading, same]
  | @reference depth x l hx =>
    rw [outlined_eq_iff hw hw']
    cases hb with
    | @reference depth' y l' hy => simp [heading, outlinedBelow, same, Value.same]
    | _ => simp [heading, same]
  | @binary depth c left right l hc hl hr ihl ihr =>
    rw [outlined_eq_iff hw hw']
    cases hb with
    | @binary depth' c' left' right' l' hc' hl' hr' =>
      have hleft := ihl hl' hl.isWritten_heading hl'.isWritten_heading
      have hright := ihr hr' hr.isWritten_heading hr'.isWritten_heading
      simp [heading, outlinedBelow, same, hleft, hright, and_assoc]
    | _ => simp [heading, same]
  | @emptyCall depth f l hf =>
    rw [outlined_eq_iff hw hw']
    cases hb with
    | emptyCall _ | call _ _ _ => exact outlined_call_inj (List.forall_mem_nil _)
    | _ => simp [heading, same]
  | @call depth f as l hf hne has ih =>
    rw [outlined_eq_iff hw hw']
    cases hb with
    | emptyCall _ => exact outlined_call_inj fun _ _ => List.forall_mem_nil _
    | call _ _ hbs =>
      exact outlined_call_inj fun a ha b hb =>
        ih a ha (hbs b hb) (has a ha).isWritten_heading (hbs b hb).isWritten_heading
    | _ => simp [heading, same]

/-! ## Trees of forms -/

variable {p q : Prototype} {body body' : Node} {l l' : Option Location}

theorem isWritten_function (p : Prototype) (body : Node) (l : Option Location) :
    (function p body l).heading.IsWritten := .function

theorem isHeading_function (hp : (prototype p).heading.IsWritten)
    (h : ∀ k, ∀ l ∈ body.outlined.lines k, IsHeading l.2) (k : Nat) :
    ∀ m ∈ (function p body l).outlined.lines k, IsHeading m.2 := by
  refine List.forall_mem_cons.2 ⟨(isWritten_function p body l).isHeading, ?_⟩
  refine List.forall_mem_append.2 ⟨List.forall_mem_singleton.2 hp.isHeading, ?_⟩
  exact List.forall_mem_append.2 ⟨h (k + 1), List.forall_mem_nil _⟩

theorem outlined_prototype_inj (hp : (prototype p).heading.IsWritten)
    (hq : (prototype q).heading.IsWritten) :
    (prototype p).outlined = (prototype q).outlined ↔ p.same q = true := by
  rw [outlined_eq_iff hp hq]
  simp [heading, outlinedBelow, Prototype.same_iff]

theorem outlined_function_inj (hp : (prototype p).heading.IsWritten)
    (hq : (prototype q).heading.IsWritten)
    (h : body.outlined = body'.outlined ↔ body.same body' = true) :
    (function p body l).outlined = (function q body' l').outlined ↔
      (function p body l).same (function q body' l') = true := by
  rw [outlined_eq_iff (isWritten_function p body l) (isWritten_function q body' l')]
  simp [heading, outlinedBelow, same, h, outlined_prototype_inj hp hq]

end Node

/-! ## Texts -/

namespace OutlinePrinter

variable {k : Stack} {n : Node}

/-- The answer of a printer, whatever it has been used for, is the lines of the tree or the first
obstacle. -/
theorem printOn_fst (k : Stack) (p : OutlinePrinter) (n : Node) : (p.printOn k n).1 =
    outcome (k.first (Node.refused Node.foreignRefusal) n)
      ("\n".intercalate ((n.outlined.lines 0).map indented)) := by
  have hwrites : Printing.Writes (n.outlineUnder k [])
      (k.first (Node.refused Node.foreignRefusal) n) fun depth => n.outlined.lines depth :=
    Node.outlineUnder_writes k [] n
  obtain ⟨hdone, hlines⟩ := hwrites p.reset
  show ((n.outlineUnder k []).run p.reset).1.map
    (fun _ => ((n.outlineUnder k []).run p.reset).2.text) = _
  rw [hdone]
  cases hf : k.first (Node.refused Node.foreignRefusal) n with
  | some r => rfl
  | none =>
    rw [hlines hf]
    exact congrArg Except.ok (text_writeLines rfl)

theorem eq_of_printOn_eq_ok {p : OutlinePrinter} {t : String} (h : (p.printOn k n).1 = .ok t) :
    t = "\n".intercalate ((n.outlined.lines 0).map indented) := by
  rw [printOn_fst] at h
  exact eq_of_outcome_eq_ok h

/-- Only the stack decides whether a sound tree is printed. -/
theorem printOn_of_isSound (h : n.IsSound) (hk : k.HasRoom n) (p : OutlinePrinter) :
    (p.printOn k n).1 = .ok ("\n".intercalate ((n.outlined.lines 0).map indented)) := by
  rw [printOn_fst, outcome_eq_ok_iff, Stack.first_refused_eq_none_iff]
  exact ⟨hk, h⟩

end OutlinePrinter

namespace FormKind

open Node

variable {R R' : Rules} {xs ys : List Lexeme} {kind kind' : FormKind} {n m : Node}

/-- A form gives a prototype or a function, and its lines can be read. -/
theorem Gives.exists_prototype (h : kind.Gives R xs n) :
    ∃ p, (prototype p).heading.IsWritten ∧ (n = prototype p ∨ ∃ body l, n = function p body l ∧
      body.IsExpression R xs (R.maxDepth - 1)) := by
  cases h with
  | @definition p body l hp hb =>
    exact ⟨p, .prototype (.inr hp.name) hp.parameters, .inr ⟨body, l, rfl, hb⟩⟩
  | @external p hp => exact ⟨p, .prototype (.inr hp.name) hp.parameters, .inl rfl⟩
  | @expression l m body hb =>
    exact ⟨.anonymous l, .prototype (.inl rfl) (List.forall_mem_nil _), .inr ⟨body, m, rfl, hb⟩⟩

theorem Gives.isHeading (h : kind.Gives R xs n) (k : Nat) :
    ∀ l ∈ n.outlined.lines k, IsHeading l.2 := by
  obtain ⟨p, hp, rfl | ⟨body, l, rfl, hb⟩⟩ := h.exists_prototype
  · exact List.forall_mem_singleton.2 hp.isHeading
  · exact isHeading_function hp hb.isHeading k

/-- The outline of a form's tree tells what it is. -/
theorem Gives.outlined_inj (h : kind.Gives R xs n) (h' : kind'.Gives R' ys m) :
    n.outlined = m.outlined ↔ n.same m = true := by
  obtain ⟨p, hp, rfl | ⟨body, l, rfl, hb⟩⟩ := h.exists_prototype <;>
  obtain ⟨q, hq, rfl | ⟨body', l', rfl, hb'⟩⟩ := h'.exists_prototype
  · rw [outlined_prototype_inj hp hq, same]
  · rw [outlined_eq_iff hp (isWritten_function q body' l')]
    simp [heading, same]
  · rw [outlined_eq_iff (isWritten_function p body l) hq]
    simp [heading, same]
  · exact outlined_function_inj hp hq (hb.outlined_inj hb')

end FormKind

/-! ## Runs -/

namespace Session

variable {o o' : Options} {file file' : String} {answers answers' : List (Option Char)}
  {remembersEnd remembersEnd' : Bool} {s s' : Session} {r r' : FormResult} {n n' : Node}

/-- Every tree that a run hands out has an outline, whatever the printer has written before. Two
trees, of one run or of two, have the same outline if and only if they are equal. Where a stack
lets a tree be printed, its outline is what is printed. -/
theorem outline_eq_iff (h : ofOptions o file (.ofAnswers answers remembersEnd) = .ok s)
    (h' : ofOptions o' file' (.ofAnswers answers' remembersEnd') = .ok s')
    (hr : r ∈ s.results) (hr' : r' ∈ s'.results) (hn : r.outcome = .ok n)
    (hn' : r'.outcome = .ok n') (out out' : OutlinePrinter) :
    ∃ t t', (out.print n).1 = .ok t ∧ (out'.print n').1 = .ok t' ∧
      (t = t' ↔ n.same n' = true) ∧ ∀ k u, ((out.printOn k n).1 = .ok u → u = t) ∧
        ((out'.printOn k n').1 = .ok u → u = t') := by
  obtain ⟨R, xs, hg⟩ := exists_gives h hr hn
  obtain ⟨R', ys, hg'⟩ := exists_gives h' hr' hn'
  refine ⟨_, _, OutlinePrinter.printOn_of_isSound hg.isSound (Stack.unbounded_hasRoom n) out,
    OutlinePrinter.printOn_of_isSound hg'.isSound (Stack.unbounded_hasRoom n') out', ?_,
    fun k u => ⟨OutlinePrinter.eq_of_printOn_eq_ok, OutlinePrinter.eq_of_printOn_eq_ok⟩⟩
  rw [indentedLines_inj (hg.isHeading 0) (hg'.isHeading 0), Outline.lines_inj,
    hg.outlined_inj hg']

/-- Two runs under different rules, in which the same names stand beside and inside each other. One
printer has been used before and is still indented. -/
theorem outline_of_nested_calls :
    ∃ s s', ofOptions .standard "p" (.ofAnswers ("f(g(), x)".toList.map some) true) = .ok s ∧
      ofOptions { Options.standard with maxDepth := 5 } "q"
        (.ofAnswers ("f(g(x));".toList.map some) false) = .ok s' ∧
      ∃ r ∈ s.results, ∃ r' ∈ s'.results, ∃ n n', r.outcome = .ok n ∧ r'.outcome = .ok n' ∧
        n.same n' = false ∧
        ∃ t t', ((⟨["Function"], 3⟩ : OutlinePrinter).print n).1 = .ok t ∧
          (OutlinePrinter.start.print n').1 = .ok t' ∧ (t = t' ↔ n.same n' = true) ∧
          ∀ k u, (((⟨["Function"], 3⟩ : OutlinePrinter).printOn k n).1 = .ok u → u = t) ∧
            ((OutlinePrinter.start.printOn k n').1 = .ok u → u = t') := by
  have h : ofOptions .standard "p" (.ofAnswers ("f(g(), x)".toList.map some) true) =
      .ok (start ⟨PrecedenceTable.standard.freeze, 256, true⟩ Collector.standardMaxErrors "p"
        (.ofAnswers ("f(g(), x)".toList.map some) true)) := rfl
  have h' : ofOptions { Options.standard with maxDepth := 5 } "q"
        (.ofAnswers ("f(g(x));".toList.map some) false) =
      .ok (start ⟨PrecedenceTable.standard.freeze, 5, true⟩ Collector.standardMaxErrors "q"
        (.ofAnswers ("f(g(x));".toList.map some) false)) := rfl
  have hrun : ((start ⟨PrecedenceTable.standard.freeze, 256, true⟩ Collector.standardMaxErrors "p"
      (.ofAnswers ("f(g(), x)".toList.map some) true)).results.any fun r =>
        r.outcome.toOption.any fun n => (start ⟨PrecedenceTable.standard.freeze, 5, true⟩
          Collector.standardMaxErrors "q"
          (.ofAnswers ("f(g(x));".toList.map some) false)).results.any fun r' => r'.outcome.toOption.any fun n' => !n.same n') = true := by
    decide +kernel
  obtain ⟨r, hr, n, hn, hrest⟩ := exists_tree_of_any hrun
  obtain ⟨r', hr', n', hn', hdiffer⟩ := exists_tree_of_any hrest
  exact ⟨_, _, h, h', r, hr, r', hr', n, n', hn, hn', by simpa using hdiffer,
    outline_eq_iff h h' hr hr' hn hn' ⟨["Function"], 3⟩ .start⟩

end Session

end OperatorGrammar
