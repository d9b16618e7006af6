import OperatorGrammar.Proofs.Grammar.Placement
import OperatorGrammar.Proofs.Locality

/-!
Completing what has been taken in. Unless expressions nest too deep, whatever has been taken in
when a reading fails is the beginning of a form: an operand is put where one has to follow, and
then every parenthesis that is open is closed. Main statement: `Parser.form_completes`.
-/

namespace OperatorGrammar

/-! ## Expressions -/

namespace Expression.Reader

variable {R : Rules} {r : Reader} {e : Node} {outside : Nat} {ts : List Token}

/-- Wherever an operand has to follow, one can, unless too many expressions are open. -/
theorem exists_operand (h : r.progress = .entering → r.opened < R.maxDepth) :
    ∃ ts r' e, r.readAll? R ts = some r' ∧ r'.progress.operand? = some e ∧
      r'.levels = r.levels := by
  cases hp : r.progress with
  | entering =>
    refine ⟨[⟨.identifier "x", default⟩],
      { r with opened := r.opened + 1, progress := .named (.text "x") default }, _, ?_, rfl, rfl⟩
    rw [readAll?_singleton, read?_entering hp (h hp)]
    rfl
  | operand =>
    refine ⟨[⟨.identifier "x", default⟩], { r with progress := .named (.text "x") default }, _, ?_,
      rfl, rfl⟩
    rw [readAll?_singleton, read?, hp]
    rfl
  | arguments f l =>
    refine ⟨[⟨.char ')', default⟩], { r with progress := .complete (.call f [] (some l)) }, _, ?_,
      rfl, rfl⟩
    rw [readAll?_singleton, read?, hp]
    rfl
  | named x l => exact ⟨[], r, _, rfl, by rw [hp]; rfl, rfl⟩
  | complete e => exact ⟨[], r, e, rfl, by rw [hp]; rfl, rfl⟩

/-- Behind an operand, every parenthesis that is open can be closed. -/
theorem exists_closing (h : r.progress.operand? = some e) :
    ∃ ts r' e', r.readAll? R ts = some r' ∧ r'.progress.operand? = some e' ∧ r'.levels = [] := by
  induction hl : r.levels generalizing r e with
  | nil => exact ⟨[], r, e, rfl, h, hl⟩
  | cons level levels ih =>
    obtain ⟨outer, enclosure⟩ := level
    have close : ∃ q d, r.read? R ⟨.char ')', default⟩ = some q ∧
        q.progress.operand? = some d ∧ q.levels = levels := by
      rw [read?_of_operand h rfl]
      cases enclosure with
      | group => exact ⟨_, _, readOn?_closeGroup hl, rfl, rfl⟩
      | call f l arguments => exact ⟨_, _, readOn?_closeCall hl, rfl, rfl⟩
    obtain ⟨q, d, hq, hd, hlevels⟩ := close
    obtain ⟨ts, r', e', hr, he, hnil⟩ := ih hd hlevels
    exact ⟨⟨.char ')', default⟩ :: ts, r', e', by rw [readAll?_cons, hq]; exact hr, he, hnil⟩

/-- What has been taken in of an expression can be completed to one. -/
theorem Begun.exists_completion (hb : Begun R outside r ts)
    (h : r.progress = .entering → r.opened < R.maxDepth) :
    ∃ (us : List Token) (e : Phrase .expression),
      e.Fits R (R.maxDepth - outside) ∧ e.tokens = ts ++ us := by
  obtain ⟨us, r₁, d, h₁, hd, -⟩ := exists_operand h
  obtain ⟨vs, r₂, d', h₂, hd', hnil⟩ := exists_closing (R := R) hd
  obtain ⟨e, he, ht, -⟩ := ((hb.readAll h₁).readAll h₂).expression hnil hd'
  exact ⟨us ++ vs, e, he, by rw [ht, List.append_assoc]⟩

/-- An expression that is entered fails because of its depth if too many are open. -/
theorem opened_lt_of_endBefore {lexeme : Lexeme} {fault : Fault}
    (h : r.endBefore R lexeme = .error fault) (hn : ∀ limit, fault ≠ .nestingTooDeep limit)
    (hp : r.progress = .entering) : r.opened < R.maxDepth := by
  by_contra ho
  rw [endBefore, hp] at h
  obtain rfl : r.entryFault R lexeme = fault := Except.error.inj h
  exact hn R.maxDepth (if_neg ho)

end Expression.Reader

/-! ## Prototypes -/

namespace Prototype

variable {u : Upcoming} {us : List Scanned} {f : Failure}

/-- The names that have been taken in are different parameters. -/
theorem readParameters_completes (read : List String) (ts : List Scanned) (hd : read.Nodup) :
    ∃ (us : List Scanned) (xs : List (String × Location)), ts = us ++ (readParameters read ts).2 ∧
      us.map (·.token) = Signature.parameterTokens xs ∧
      (read.reverse ++ xs.map Prod.fst).Nodup := by
  induction ts generalizing read with
  | nil => exact ⟨[], [], rfl, rfl, by simpa using List.nodup_reverse.2 hd⟩
  | cons t ts ih =>
    have stop : ∃ (us : List Scanned) (xs : List (String × Location)), t :: ts = us ++ t :: ts ∧
        us.map (·.token) = Signature.parameterTokens xs ∧
        (read.reverse ++ xs.map Prod.fst).Nodup :=
      ⟨[], [], rfl, rfl, by simpa using List.nodup_reverse.2 hd⟩
    simp only [readParameters]
    split
    · rename_i x hx
      split
      · exact stop
      · rename_i hm
        obtain ⟨us, xs, hu, ht, hn⟩ := ih (x :: read) (List.nodup_cons.2 ⟨hm, hd⟩)
        refine ⟨t :: us, (x, t.token.location) :: xs, congrArg (t :: ·) hu, ?_, by simpa using hn⟩
        rw [List.map_cons, ht, Signature.parameterTokens, Signature.parameterTokens, List.map_cons,
          ← hx]
    · exact stop

/-- What has been taken in of a prototype can be completed to one. -/
theorem read_completes (h : (Prototype.read u).1 = .error f)
    (hm : u.Moves us (Prototype.read u).2) :
    ∃ (g : Signature) (ts : List Token), g.Fits ∧ g.tokens = us.map (·.token) ++ ts := by
  have empty : ∀ x l l', (Signature.mk x l l' [] default).Fits := fun _ _ _ => List.nodup_nil
  by_cases hx : ∃ x, u.lexeme = .identifier x
  case neg =>
    rw [read_of_unnamed fun x h => hx ⟨x, h⟩] at hm
    obtain rfl := hm.unique (.refl u)
    exact ⟨⟨"f", default, default, [], default⟩, _, empty _ _ _, rfl⟩
  obtain ⟨x, hx⟩ := hx
  obtain ⟨a, hma, -, hax⟩ := Upcoming.moves_of_lexeme hx (by simp)
  have ha : a.token = ⟨.identifier x, a.token.location⟩ := by rw [← hax]
  by_cases ho : u.advance.lexeme = .char '('
  case neg =>
    rw [read_of_unopened hx ho] at hm
    obtain rfl := hm.unique hma
    exact ⟨⟨x, a.token.location, default, [], default⟩, _, empty _ _ _, by
      rw [Signature.tokens, ← ha]
      rfl⟩
  obtain ⟨b, hmb, -, hbx⟩ := Upcoming.moves_of_lexeme ho (by simp)
  have hb : b.token = ⟨.char '(', b.token.location⟩ := by rw [← hbx]
  obtain ⟨ps, xs, hps, ht, hd⟩ := readParameters_completes [] u.advance.advance.tokens .nil
  have hleft := (hma.trans hmb).trans (Upcoming.moves_withTokens hps)
  -- whatever the token behind the names is, a parenthesis could stand there
  have hus : us = [a] ++ [b] ++ ps := by
    rcases hr : readParameters [] u.advance.advance.tokens with ⟨g | names, left⟩
    all_goals rw [hr] at hleft
    case error =>
      rw [read_of_duplicate hx ho hr] at hm
      exact hm.unique hleft
    case ok =>
      by_cases hc : (u.withTokens left).lexeme = .char ')'
      · rw [read_of_closed hx ho hr hc] at h
        cases h
      · rw [read_of_unclosed hx ho hr hc] at hm
        exact hm.unique hleft
  refine ⟨⟨x, a.token.location, b.token.location, xs, default⟩, [⟨.char ')', default⟩],
    by simpa [Signature.Fits] using hd, ?_⟩
  rw [hus, Signature.tokens, ← ha, ← hb, List.map_append, ht]
  rfl

end Prototype

/-! ## Forms -/

/-- Tokens that are the first of a form of a kind. -/
def BeginsForm (R : Rules) (kind : FormKind) (ts : List Token) : Prop :=
  ∃ (F : Form) (us : List Token), F.Fits R ∧ F.kind? = some kind ∧ F.tokens = ts ++ us

namespace Parser

open Expression.Reader

variable {p : Parser} {us : List Scanned} {f : Failure}

theorem expression_completes (h : p.expression.1 = .error f)
    (hn : ∀ limit, f.fault ≠ .nestingTooDeep limit)
    (hm : p.upcoming.Moves us p.expression.2.upcoming) :
    ∃ (e : Phrase .expression) (ts : List Token),
      e.Fits p.rules (p.rules.maxDepth - p.opened) ∧ e.tokens = us.map (·.token) ++ ts := by
  obtain ⟨vs, r, hu, hr, hstop⟩ :=
    runOn_refuses p.rules p.upcoming.last (.expression p.opened) p.upcoming.tokens
  have hmv : p.upcoming.Moves vs p.expression.2.upcoming := Upcoming.moves_withTokens hu
  obtain rfl := hm.unique hmv
  have hend := congrArg Prod.fst (expression_of_readAll hmv hr hstop)
  rw [h] at hend
  obtain ⟨fault, hfault, rfl⟩ := Except.mapError_eq_error_iff.1 hend.symm
  obtain ⟨ts, e, he, ht⟩ := ((begun_expression p.rules p.opened).readAll hr).exists_completion
    (opened_lt_of_endBefore hfault hn)
  exact ⟨e, ts, he, ht⟩

theorem prototype_completes {t : Scanned} {ts : List Scanned} (ht : p.upcoming.tokens = t :: ts)
    (h : p.next.prototype.1 = .error f) (hm : p.upcoming.Moves us p.next.prototype.2.upcoming) :
    ∃ (g : Signature) (ts : List Token), g.Fits ∧
      t.token :: (g.tokens) = us.map (·.token) ++ ts := by
  obtain ⟨vs, hv, -⟩ := Prototype.read_local p.next.upcoming
  obtain ⟨g, ws, hg, htokens⟩ := Prototype.read_completes h hv
  have hmt := p.upcoming.moves_advance
  rw [ht] at hmt
  obtain rfl := hm.unique (hmt.trans hv)
  exact ⟨g, ws, hg, congrArg (t.token :: ·) htokens⟩

theorem definition_completes (ho : p.opened = 0) (hd : 0 < p.rules.maxDepth)
    (hl : p.upcoming.lexeme = .define) (h : p.definition.1 = .error f)
    (hn : ∀ limit, f.fault ≠ .nestingTooDeep limit)
    (hm : p.upcoming.Moves us p.definition.2.upcoming) :
    BeginsForm p.rules .definition (us.map (·.token)) := by
  obtain ⟨t, hmt, -, htl⟩ := Upcoming.moves_of_lexeme hl nofun
  have htoken : t.token = ⟨.define, t.token.location⟩ := by rw [← htl]
  rcases hq : p.next.prototype with ⟨g | proto, q⟩
  case error =>
    rw [definition_of_error hq] at hm
    obtain ⟨g, ts, hg, hts⟩ :=
      prototype_completes hmt.tokens (congrArg Prod.fst hq) (by rw [hq]; exact hm)
    -- a name will do for the body
    obtain ⟨body, hbody⟩ : ∃ body : Phrase .expression, body.Fits p.rules p.rules.maxDepth := by
      obtain ⟨n, hdepth⟩ := Nat.exists_eq_succ_of_ne_zero (Nat.pos_iff_ne_zero.1 hd)
      rw [hdepth]
      exact ⟨.chain (.name "x" default) .nothing, by simp⟩
    refine ⟨.definition t.token.location g body, ts ++ body.tokens, ⟨hg, hbody⟩, rfl, ?_⟩
    rw [Form.tokens, ← htoken, ← List.cons_append, hts, List.append_assoc]
  case ok =>
    obtain ⟨g, us₁, hg, -, hm₁, ht₁, hk⟩ := prototype_of_ok hq
    rw [definition_of_ok hq] at h hm
    obtain ⟨us₂, hm₂, -⟩ := q.expression_local
    obtain ⟨e, ts, he, hts⟩ := expression_completes (Except.map_eq_error_iff.1 h) hn hm₂
    have hrules : q.rules = p.rules ∧ q.opened = p.opened := by
      rw [hk]
      exact ⟨rfl, rfl⟩
    rw [hrules.1, hrules.2, ho, Nat.sub_zero] at he
    obtain rfl := hm.unique ((hmt.trans hm₁).trans hm₂)
    refine ⟨.definition t.token.location g e, ts, ⟨hg, he⟩, rfl, ?_⟩
    rw [Form.tokens, ← htoken, hts, ← ht₁]
    simp

theorem external_completes (hl : p.upcoming.lexeme = .external) (h : p.external.1 = .error f)
    (hm : p.upcoming.Moves us p.external.2.upcoming) :
    BeginsForm p.rules .external (us.map (·.token)) := by
  obtain ⟨t, hmt, -, htl⟩ := Upcoming.moves_of_lexeme hl nofun
  have htoken : t.token = ⟨.external, t.token.location⟩ := by rw [← htl]
  obtain ⟨g, ts, hg, hts⟩ :=
    prototype_completes hmt.tokens (Except.map_eq_error_iff.1 h) hm
  exact ⟨.external t.token.location g, ts, hg, rfl, by rw [Form.tokens, ← htoken, hts]⟩

theorem topLevelExpression_completes (ho : p.opened = 0) (h : p.topLevelExpression.1 = .error f)
    (hn : ∀ limit, f.fault ≠ .nestingTooDeep limit)
    (hm : p.upcoming.Moves us p.topLevelExpression.2.upcoming) :
    BeginsForm p.rules .expression (us.map (·.token)) := by
  obtain ⟨e, ts, he, hts⟩ := expression_completes (Except.map_eq_error_iff.1 h) hn hm
  rw [ho, Nat.sub_zero] at he
  exact ⟨.expression e, ts, he, rfl, hts⟩

/-- What has been taken in when a form fails is the beginning of a form, unless expressions nest
too deep. -/
theorem form_completes (ho : p.opened = 0) (hd : 0 < p.rules.maxDepth)
    (h : (p.form (.ofLexeme p.upcoming.lexeme)).1 = .error f)
    (hn : ∀ limit, f.fault ≠ .nestingTooDeep limit)
    (hm : p.upcoming.Moves us (p.form (.ofLexeme p.upcoming.lexeme)).2.upcoming) :
    BeginsForm p.rules (.ofLexeme p.upcoming.lexeme) (us.map (·.token)) := by
  cases hl : p.upcoming.lexeme with
  | define => rw [hl] at h hm; exact definition_completes ho hd hl h hn hm
  | external => rw [hl] at h hm; exact external_completes hl h hm
  | _ => rw [hl] at h hm; exact topLevelExpression_completes ho h hn hm

end Parser

end OperatorGrammar
