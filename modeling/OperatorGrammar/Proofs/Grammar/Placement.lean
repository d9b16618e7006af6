import OperatorGrammar.Proofs.Grammar.Form

/-!
Phrases and forms, wherever their tokens are. The grammar and the rules look at lexemes alone, so
tokens with the lexemes of a form make a form of the same kind. Main statements:
`Form.exists_placed` and `IsForm.isReadAlone`.
-/

namespace OperatorGrammar

/-- A token with a known lexeme is that lexeme somewhere. -/
theorem exists_location_of_map_eq_cons {ts : List Token} {x : Lexeme} {xs : List Lexeme}
    (h : ts.map (·.lexeme) = x :: xs) :
    ∃ l us, ts = ⟨x, l⟩ :: us ∧ us.map (·.lexeme) = xs := by
  obtain ⟨t, us, rfl, rfl, hus⟩ := List.map_eq_cons_iff.1 h
  exact ⟨t.location, us, rfl, hus⟩

theorem exists_location_of_map_eq_singleton {ts : List Token} {x : Lexeme}
    (h : ts.map (·.lexeme) = [x]) : ∃ l, ts = [⟨x, l⟩] := by
  obtain ⟨l, us, rfl, hnil⟩ := exists_location_of_map_eq_cons h
  obtain rfl := List.map_eq_nil_iff.1 hnil
  exact ⟨l, rfl⟩

theorem exists_parameters {parameters : List String} {ts : List Token}
    (h : ts.map (·.lexeme) = parameters.map Lexeme.identifier) :
    ∃ xs, Signature.parameterTokens xs = ts ∧ xs.map Prod.fst = parameters := by
  induction parameters generalizing ts with
  | nil => exact ⟨[], (List.map_eq_nil_iff.1 h).symm, rfl⟩
  | cons x parameters ih =>
    obtain ⟨l, us, rfl, hus⟩ := exists_location_of_map_eq_cons h
    obtain ⟨xs, rfl, rfl⟩ := ih hus
    exact ⟨(x, l) :: xs, rfl, rfl⟩

namespace Phrase

/-- Tokens with the lexemes of a phrase make a phrase of which the rules ask the same. -/
theorem exists_placed {s : Symbol} (p : Phrase s) {ts : List Token}
    (h : ts.map (·.lexeme) = p.tokens.map (·.lexeme)) :
    ∃ q : Phrase s, q.tokens = ts ∧ ∀ R n, p.Fits R n → q.Fits R n := by
  induction p generalizing ts with
  | name x l =>
    obtain ⟨m, rfl⟩ := exists_location_of_map_eq_singleton h
    exact ⟨.name x m, rfl, by simp⟩
  | number text l =>
    obtain ⟨m, rfl⟩ := exists_location_of_map_eq_singleton h
    exact ⟨.number text m, rfl, by simp⟩
  | group l e l' he =>
    rw [tokens, List.map_cons, List.map_append] at h
    obtain ⟨m, us, rfl, hu⟩ := exists_location_of_map_eq_cons h
    obtain ⟨vs, ws, rfl, hv, hw⟩ := List.map_eq_append_iff.1 hu
    obtain ⟨m', rfl⟩ := exists_location_of_map_eq_singleton hw
    obtain ⟨d, rfl, hd⟩ := he hv
    exact ⟨.group m d m', rfl, by simpa using hd⟩
  | emptyCall f l l' l'' =>
    obtain ⟨m, us, rfl, hu⟩ := exists_location_of_map_eq_cons h
    obtain ⟨m', vs, rfl, hv⟩ := exists_location_of_map_eq_cons hu
    obtain ⟨m'', rfl⟩ := exists_location_of_map_eq_singleton hv
    exact ⟨.emptyCall f m m' m'', rfl, by simp⟩
  | call f l l' as l'' has =>
    rw [tokens, List.map_cons, List.map_cons, List.map_append] at h
    obtain ⟨m, us, rfl, hu⟩ := exists_location_of_map_eq_cons h
    obtain ⟨m', us', rfl, hu'⟩ := exists_location_of_map_eq_cons hu
    obtain ⟨vs, ws, rfl, hv, hw⟩ := List.map_eq_append_iff.1 hu'
    obtain ⟨m'', rfl⟩ := exists_location_of_map_eq_singleton hw
    obtain ⟨bs, rfl, hbs⟩ := has hv
    exact ⟨.call f m m' bs m'', rfl, by simpa using hbs⟩
  | nothing =>
    obtain rfl := List.map_eq_nil_iff.1 h
    exact ⟨.nothing, rfl, by simp⟩
  | operator c l p ps hp hps =>
    rw [tokens, List.map_cons, List.map_append] at h
    obtain ⟨m, us, rfl, hu⟩ := exists_location_of_map_eq_cons h
    obtain ⟨vs, ws, rfl, hv, hw⟩ := List.map_eq_append_iff.1 hu
    obtain ⟨q, rfl, hq⟩ := hp hv
    obtain ⟨qs, rfl, hqs⟩ := hps hw
    refine ⟨.operator c m q qs, rfl, ?_⟩
    intro R n hf
    obtain ⟨hc, hfp, hfps⟩ := fits_operator.1 hf
    exact fits_operator.2 ⟨hc, hq R n hfp, hqs R n hfps⟩
  | chain p ps hp hps =>
    rw [tokens, List.map_append] at h
    obtain ⟨vs, ws, rfl, hv, hw⟩ := List.map_eq_append_iff.1 h
    obtain ⟨q, rfl, hq⟩ := hp hv
    obtain ⟨qs, rfl, hqs⟩ := hps hw
    refine ⟨.chain q qs, rfl, ?_⟩
    intro R n hf
    cases n with
    | zero => exact absurd hf (not_fits_zero _)
    | succ n =>
      obtain ⟨hfp, hfps⟩ := fits_chain.1 hf
      exact fits_chain.2 ⟨hq R n hfp, hqs R n hfps⟩
  | argument e he =>
    obtain ⟨d, rfl, hd⟩ := he h
    exact ⟨.argument d, rfl, by simpa using hd⟩
  | arguments e l as he has =>
    rw [tokens, List.map_append, List.map_cons] at h
    obtain ⟨vs, ws, rfl, hv, hw⟩ := List.map_eq_append_iff.1 h
    obtain ⟨m, us, rfl, hu⟩ := exists_location_of_map_eq_cons hw
    obtain ⟨d, rfl, hd⟩ := he hv
    obtain ⟨bs, rfl, hbs⟩ := has hu
    refine ⟨.arguments d m bs, rfl, ?_⟩
    intro R n hf
    obtain ⟨hfe, hfas⟩ := fits_arguments.1 hf
    exact fits_arguments.2 ⟨hd R n hfe, hbs R n hfas⟩

end Phrase

theorem Signature.exists_placed (g : Signature) {ts : List Token}
    (h : ts.map (·.lexeme) = g.tokens.map (·.lexeme)) :
    ∃ g' : Signature, g'.tokens = ts ∧ (g.Fits → g'.Fits) := by
  rw [tokens, List.map_cons, List.map_cons, List.map_append] at h
  obtain ⟨l, us, rfl, hu⟩ := exists_location_of_map_eq_cons h
  obtain ⟨l', us', rfl, hu'⟩ := exists_location_of_map_eq_cons hu
  obtain ⟨vs, ws, rfl, hv, hw⟩ := List.map_eq_append_iff.1 hu'
  obtain ⟨l'', rfl⟩ := exists_location_of_map_eq_singleton hw
  have hnames : (parameterTokens g.parameters).map (·.lexeme) =
      (g.parameters.map Prod.fst).map .identifier := by
    simp [parameterTokens]
  obtain ⟨xs, rfl, hxs⟩ := exists_parameters (hv.trans hnames)
  refine ⟨⟨g.name, l, l', xs, l''⟩, rfl, ?_⟩
  rw [Fits, Fits, ← hxs]
  exact id

namespace Form

/-- The kind of a form; a semicolon is of none. -/
def kind? : Form → Option FormKind
  | definition .. => some .definition
  | external .. => some .external
  | expression _ => some .expression
  | semicolon _ => none

theorem exists_result {F : Form} {kind : FormKind} (h : F.kind? = some kind) (R : Rules) :
    ∃ n, F.result? R = some ⟨kind, .ok n⟩ := by
  cases F <;> cases h <;> exact ⟨_, rfl⟩

/-- Tokens with the lexemes of a form make a form of its kind, which keeps the same rules. -/
theorem exists_placed (F : Form) {ts : List Token}
    (h : ts.map (·.lexeme) = F.tokens.map (·.lexeme)) :
    ∃ G : Form, G.tokens = ts ∧ G.kind? = F.kind? ∧ ∀ R, F.Fits R → G.Fits R := by
  cases F with
  | definition l g body =>
    rw [tokens, List.map_cons, List.map_append] at h
    obtain ⟨m, us, rfl, hu⟩ := exists_location_of_map_eq_cons h
    obtain ⟨vs, ws, rfl, hv, hw⟩ := List.map_eq_append_iff.1 hu
    obtain ⟨g', rfl, hg⟩ := g.exists_placed hv
    obtain ⟨body', rfl, hb⟩ := body.exists_placed hw
    exact ⟨.definition m g' body', rfl, rfl, fun R hf => ⟨hg hf.1, hb R _ hf.2⟩⟩
  | external l g =>
    rw [tokens, List.map_cons] at h
    obtain ⟨m, us, rfl, hu⟩ := exists_location_of_map_eq_cons h
    obtain ⟨g', rfl, hg⟩ := g.exists_placed hu
    exact ⟨.external m g', rfl, rfl, fun _ => hg⟩
  | expression e =>
    obtain ⟨d, rfl, hd⟩ := e.exists_placed h
    exact ⟨.expression d, rfl, rfl, fun R => hd R _⟩
  | semicolon l =>
    obtain ⟨m, rfl⟩ := exists_location_of_map_eq_singleton h
    exact ⟨.semicolon m, rfl, rfl, fun _ _ => trivial⟩

end Form

/-- Lexemes that make a complete form of a kind under the rules. -/
def IsForm (R : Rules) (kind : FormKind) (ls : List Lexeme) : Prop :=
  ∃ F : Form, F.Fits R ∧ F.kind? = some kind ∧ F.tokens.map (·.lexeme) = ls

/-- Lexemes that are read as a form of a kind, up to the last one, when nothing comes behind
them. -/
def IsReadAlone (R : Rules) (kind : FormKind) (ls : List Lexeme) : Prop :=
  ∀ p : Parser, p.rules = R → p.opened = 0 →
    p.upcoming.tokens.map (·.token.lexeme) = ls →
      ∃ n, p.form kind = (.ok n, { p with upcoming := p.upcoming.withTokens [] })

/-- Every complete form can be read. -/
theorem IsForm.isReadAlone {R : Rules} {kind : FormKind} {ls : List Lexeme}
    (h : IsForm R kind ls) : IsReadAlone R kind ls := by
  obtain ⟨F, hF, hk, rfl⟩ := h
  rintro p rfl ho ht
  have hlexemes : (p.upcoming.tokens.map (·.token)).map (·.lexeme) =
      F.tokens.map (·.lexeme) := by
    rw [List.map_map]
    exact ht
  obtain ⟨G, hG, hGk, hfits⟩ := F.exists_placed hlexemes
  obtain ⟨n, hn⟩ := Form.exists_result (hGk.trans hk) p.rules
  have hend : EndsBefore p.rules G.tokens (p.upcoming.withTokens []).lexeme := by
    rw [show (p.upcoming.withTokens []).lexeme = .endOfInput from p.upcoming.last_lexeme]
    exact ⟨by simp [Rules.precedence, PrecedenceTable.noPrecedence], fun _ => nofun⟩
  obtain ⟨-, hkind, hform⟩ :=
    Parser.form_of_fits ho (hfits _ hF) hn (List.append_nil _).symm hG.symm hend
  rw [← hkind] at hform
  exact ⟨n, hform⟩

end OperatorGrammar
