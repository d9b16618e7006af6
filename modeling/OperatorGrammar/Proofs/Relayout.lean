import Mathlib.Logic.Function.Basic
import OperatorGrammar.Proofs.Shape
import OperatorGrammar.Proofs.Turn.Alike

/-!
Writing a text with other layout. Blanks and comments part lexemes and do nothing else: the tokens
of the text are the same, and so is what is read from them, with each place moved to where its token
is now. Main statement: `Spelling.relayout`.
-/

namespace OperatorGrammar

/-! ## The same tokens -/

/-- The same token, where one has been moved to. -/
def Scanned.Moved (m : Location → Location) (t t' : Scanned) : Prop :=
  t'.token = t.token.relocate m

theorem Rules.pairs_moved (R : Rules) (m : Location → Location) :
    R.Pairs m (Scanned.Moved m) where
  lexeme h := by
    rw [show _ = _ from h]
    exact .same _
  location h := by
    rw [show _ = _ from h]
    rfl

/-- Tokens at different places can be moved to wherever the same lexemes are. -/
theorem exists_moved {ts ts' : List Scanned} (hn : (ts.map (·.token.location)).Nodup)
    (hl : ts'.map (·.token.lexeme) = ts.map (·.token.lexeme)) :
    ∃ m, List.Forall₂ (Scanned.Moved m) ts ts' := by
  induction ts generalizing ts' with
  | nil =>
    obtain rfl := List.map_eq_nil_iff.1 hl
    exact ⟨id, .nil⟩
  | cons t ts ih =>
    obtain ⟨t', ts', rfl, ht, hts⟩ := List.map_eq_cons_iff.1 hl
    obtain ⟨hnew, hn⟩ := List.nodup_cons.1 hn
    obtain ⟨m, hm⟩ := ih hn hts
    refine ⟨Function.update m t.token.location t'.token.location, .cons ?_ ?_⟩
    · have hlexeme : t'.token.lexeme = t.token.lexeme := ht
      rw [Scanned.Moved, Token.relocate, Function.update_self, ← hlexeme]
    · -- none of the other tokens is at the place of the first
      have hother : ∀ a ∈ ts, a.token.location ≠ t.token.location := by
        intro a ha he
        exact hnew (List.mem_map.2 ⟨a, ha, he⟩)
      refine ((List.forall₂_and_left _ _).2 ⟨hother, hm⟩).imp ?_
      rintro a a' ⟨ha, haa'⟩
      rw [Scanned.Moved, Token.relocate, Function.update_of_ne ha]
      exact haa'

namespace Upcoming

variable {file text text' : String}

/-- Texts with the same lexemes have the same tokens but for places. -/
theorem exists_paired
    (h : (ofSource file (.ofString text')).tokens.map (·.token.lexeme) =
      (ofSource file (.ofString text)).tokens.map (·.token.lexeme)) :
    ∃ m, (ofSource file (.ofString text)).Paired (Scanned.Moved m)
      (ofSource file (.ofString text')) := by
  have hn : (((ofSource file (.ofString text)).last ::
      (ofSource file (.ofString text)).tokens).map (·.token.location)).Nodup := by
    rw [List.map_cons, List.nodup_cons, List.nodup_iff_pairwise_ne, List.pairwise_map]
    refine ⟨?_, (ofAnswers_inOrder file _ _).imp Location.IsBefore.ne⟩
    intro hmem
    obtain ⟨t, ht, hl⟩ := List.mem_map.1 hmem
    exact (isBefore_last ht).ne hl
  have hl : ((ofSource file (.ofString text')).last ::
      (ofSource file (.ofString text')).tokens).map (·.token.lexeme) =
      ((ofSource file (.ofString text)).last ::
        (ofSource file (.ofString text)).tokens).map (·.token.lexeme) := by
    rw [List.map_cons, List.map_cons, h, last_lexeme, last_lexeme]
  obtain ⟨m, hm⟩ := exists_moved hn hl
  obtain ⟨hlast, htokens⟩ := List.forall₂_cons.1 hm
  exact ⟨m, htokens, hlast⟩

/-- All tokens that one gets from a text, in their lexemes. -/
theorem lexemes_tokensToEnd (file text : String) :
    (Scanner.start file (.ofString text)).tokensToEnd.1.map (·.lexeme) =
      (ofSource file (.ofString text)).tokens.map (·.token.lexeme) ++ [.endOfInput] := by
  have he := (ofSource file (.ofString text)).last_lexeme
  rw [Scanner.tokensToEnd_eq, List.map_map]
  show ((ofSource file (.ofString text)).tokens ++ [(ofSource file (.ofString text)).last]).map
    (·.token.lexeme) = _
  rw [List.map_append, List.map_singleton, he]

end Upcoming

/-! ## The same trees -/

variable {R : Rules} {xs : List Lexeme} {depth : Nat} {kind : FormKind}

theorem Value.same_text (x : String) : (Value.text x).same (.text x) = true := by
  simp [Value.same]

theorem Prototype.same_relocate (p : Prototype) (m : Location → Location) :
    p.same (p.relocate m) = true := by
  simp [Prototype.same, Prototype.relocate]

/-- Places do not count when trees are compared. -/
theorem Node.IsExpression.same_relocate {n : Node} (h : n.IsExpression R xs depth)
    (m : Location → Location) : n.same (n.relocate m) = true := by
  induction h with
  | @number depth text l _ _ => exact Binary64.numEq_self (Literal.value_ne_nan text)
  | @reference depth x l _ => exact Value.same_text x
  | @binary depth c left right l _ _ _ ihl ihr => simp [relocate, same, ihl, ihr]
  | @emptyCall depth f l _ => simp [relocate, relocateAll, same, sameAll, Value.same_text f]
  | @call depth f as l _ _ _ ih =>
    have hall : ∀ {as : List Node}, (∀ a ∈ as, a.same (a.relocate m) = true) →
        sameAll as (relocateAll m as) = true := by
      intro as h
      induction as with
      | nil => rfl
      | cons a as ih =>
        obtain ⟨ha, has⟩ := List.forall_mem_cons.1 h
        rw [relocateAll, sameAll, ha, ih has]
        rfl
    rw [relocate, same, Value.same_text f, hall ih]
    rfl

theorem FormKind.Gives.same_relocate {n : Node} (h : kind.Gives R xs n)
    (m : Location → Location) : n.same (n.relocate m) = true := by
  cases h with
  | @definition p body l _ hb =>
    rw [Node.relocate, Node.same, p.same_relocate, hb.same_relocate m]
    rfl
  | @external p _ => exact p.same_relocate m
  | @expression l l' body hb =>
    rw [Node.relocate, Node.same, Prototype.same_relocate, hb.same_relocate m]
    rfl

/-! ## The same results -/

/-- How a result comes out where the tokens have been moved: the tree is equal, and its places have
been moved; or the error is of the same class, has the same message and has found the same. -/
inductive FormResult.Moved (m : Location → Location) : FormResult → FormResult → Prop where
  | ok (kind : FormKind) (n : Node) : n.same (n.relocate m) = true →
    Moved m ⟨kind, .ok n⟩ ⟨kind, .ok (n.relocate m)⟩
  | error (kind : FormKind) {f f' : Failure} : f'.diagnostic.cause = f.diagnostic.cause →
    f'.diagnostic.location = some (m f.location) → Moved m ⟨kind, .error f⟩ ⟨kind, .error f'⟩

theorem FormResult.Alike.moved {m : Location → Location} {r r' : FormResult}
    (h : r.Alike (Scanned.Moved m) m r')
    (hs : ∀ n, r.outcome = .ok n → n.same (n.relocate m) = true) : r.Moved m r' := by
  obtain ⟨kind, outcome⟩ := r
  obtain ⟨kind', outcome'⟩ := r'
  obtain ⟨rfl, hr⟩ := h
  cases hr with
  | ok n => exact .ok _ n (hs n rfl)
  | @error f f' hfault ht =>
    have htoken : f'.token.token = f.token.token.relocate m := ht
    refine .error _ ?_ ?_
    · rw [Failure.diagnostic, Failure.diagnostic, hfault, htoken]
      rfl
    · rw [Failure.diagnostic, Failure.location, htoken]
      rfl

namespace Session

/-- A run over the same lexemes hands out the same results. -/
theorem start_results_moved (R : Rules) (maxErrors : Int) {file text text' : String}
    (h : (Upcoming.ofSource file (.ofString text')).tokens.map (·.token.lexeme) =
      (Upcoming.ofSource file (.ofString text)).tokens.map (·.token.lexeme)) :
    ∃ m, List.Forall₂ (FormResult.Moved m) (start R maxErrors file (.ofString text)).results
      (start R maxErrors file (.ofString text')).results := by
  obtain ⟨m, hm⟩ := Upcoming.exists_paired h
  have hresults := start_results_alike (R.pairs_moved m) hm maxErrors
  have htrees : ∀ r ∈ (start R maxErrors file (.ofString text)).results,
      ∀ n, r.outcome = .ok n → n.same (n.relocate m) = true := by
    intro r hr n hn
    exact ((start_isShaped R maxErrors file _ _).trees r hr n hn).same_relocate m
  refine ⟨m, ((List.forall₂_and_left _ _).2 ⟨htrees, hresults⟩).imp ?_⟩
  rintro r r' ⟨hs, hrr'⟩
  exact hrr'.moved hs

end Session

/-- Layout does not influence parsing. Where the lexemes of a text are written with other layout,
they are found again, and under any options a run hands out the same results. -/
theorem Spelling.relayout {file text : String} {sp : Spelling}
    (h : (Scanner.start file (.ofString text)).tokensToEnd.1.map (·.lexeme) =
      sp.lexemes ++ [.endOfInput]) :
    (Scanner.start file (.ofString sp.text)).tokensToEnd.1.map (·.lexeme) =
        (Scanner.start file (.ofString text)).tokensToEnd.1.map (·.lexeme) ∧
      ∀ o s, Session.ofOptions o file (.ofString text) = .ok s →
        ∃ s' m, Session.ofOptions o file (.ofString sp.text) = .ok s' ∧
          List.Forall₂ (FormResult.Moved m) s.results s'.results := by
  rw [Upcoming.lexemes_tokensToEnd, List.append_left_inj] at h
  have hw : ∀ x ∈ sp.lexemes, x.IsWritten := by
    intro x hx
    obtain ⟨t, ht, rfl⟩ := List.mem_map.1 (h ▸ hx)
    exact Scanner.mem_isWritten ht
  have hsp := sp.ofSource_tokens hw file
  constructor
  · rw [Upcoming.lexemes_tokensToEnd, Upcoming.lexemes_tokensToEnd, hsp, h]
  · intro o s hs
    obtain ⟨R, hR, rfl⟩ := Except.map_eq_ok_iff.1 hs
    obtain ⟨m, hm⟩ := Session.start_results_moved R o.maxErrors (hsp.trans h.symm)
    exact ⟨_, m, Except.map_eq_ok_iff.2 ⟨R, hR, rfl⟩, hm⟩

/-- A call and a number behind it, written with comments of which one ends with a carriage
return. -/
theorem Spelling.relayout_with_comments :
    (Scanner.start "p" (.ofString "\x0bf#(\r( 1. )\n2#\n")).tokensToEnd.1.map (·.lexeme) =
        (Scanner.start "p" (.ofString "f(1.)2")).tokensToEnd.1.map (·.lexeme) ∧
      ∀ o s, Session.ofOptions o "p" (.ofString "f(1.)2") = .ok s →
        ∃ s' m, Session.ofOptions o "p" (.ofString "\x0bf#(\r( 1. )\n2#\n") = .ok s' ∧
          List.Forall₂ (FormResult.Moved m) s.results s'.results := by
  let sp : Spelling := {
    items := [(['\x0b'], .identifier "f"), (['#', '(', '\r'], .char '('), ([' '], .number "1."),
      ([' '], .char ')'), (['\n'], .number "2")]
    trailing := ['#', '\n']
    items_layout := by
      have hcomment : Layout ['#', '(', '\r'] :=
        .comment (List.forall_mem_singleton.2 (show Scanner.endsComment '(' = false from rfl)) rfl .nil
      have hblank : ∀ c, Scanner.isBlank c = true → Layout [c] := fun _ hc => .blank hc .nil
      simp [hcomment, hblank, Scanner.isBlank]
    trailing_layout := .comment (List.forall_mem_nil _) rfl .nil
    parted := by simp [Lexeme.isRun] }
  have h : (Scanner.start "p" (.ofString "f(1.)2")).tokensToEnd.1.map (·.lexeme) =
      sp.lexemes ++ [.endOfInput] := by
    decide +kernel
  have htext : sp.text = "\x0bf#(\r( 1. )\n2#\n" := by decide +kernel
  have hsp := Spelling.relayout h
  rwa [htext] at hsp

end OperatorGrammar
