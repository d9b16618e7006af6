import OperatorGrammar.Proofs.Grammar.Completion
import OperatorGrammar.Proofs.Program

/-!
Where failures show. Unless expressions nest too deep, a form fails at the earliest token possible:
what it has taken can be completed, but no form goes on with that token. Main statement:
`Session.ofOptions_failsEarly`.
-/

namespace OperatorGrammar

/-- A form of a kind that has taken lexemes cannot go on with the next one, but could have gone on
otherwise. -/
structure FailsFirst (R : Rules) (kind : FormKind) (taken : List Lexeme) (next : Lexeme) :
    Prop where
  completable : ∃ more, IsForm R kind (taken ++ more) ∧ IsReadAlone R kind (taken ++ more)
  refused : next ≠ .endOfInput → ∀ more, ¬ IsForm R kind (taken ++ next :: more)
  incomplete : next = .endOfInput → ¬ IsForm R kind taken

namespace Parser

variable {p : Parser} {kind : FormKind} {f : Failure} {us : List Scanned}

/-- No form of its kind goes on with the token that a form refuses: it would have been taken. -/
theorem form_refuses (ho : p.opened = 0) (hne : p.upcoming.tokens ≠ [])
    (h : (p.form kind).1 = .error f) (hm : p.upcoming.Moves us (p.form kind).2.upcoming)
    {t : Scanned} {rest : List Scanned} (ht : (p.form kind).2.upcoming.tokens = t :: rest)
    (more : List Lexeme) :
    ¬ IsForm p.rules kind (us.map (·.token.lexeme) ++ t.token.lexeme :: more) := by
  intro hform
  -- the form is put behind the tokens that have been taken, and is read up to its end
  let behind : List Scanned := t :: more.map fun l => ⟨⟨l, default⟩, .start, 0⟩
  let q : Parser := { p with upcoming := p.upcoming.withTokens (us ++ behind) }
  have hlexemes : q.upcoming.tokens.map (·.token.lexeme) =
      us.map (·.token.lexeme) ++ t.token.lexeme :: more := by
    simp [q, behind, Function.comp_def]
  obtain ⟨n, hn⟩ := hform.isReadAlone q rfl ho hlexemes
  obtain ⟨vs, hv, hlocal⟩ := form_local hne kind
  obtain rfl := hm.unique hv
  have hq := hlocal q.upcoming (p.upcoming.withTokens behind) ⟨rfl, rfl⟩ (by
    rw [ht]
    exact .token t _ _)
  rw [h, failAt_error] at hq
  cases congrArg Prod.fst (hn.symm.trans hq)

/-- What has been taken up to the end of the input is no form if it fails there. -/
theorem form_incomplete (ho : p.opened = 0) (h : (p.form kind).1 = .error f)
    (hm : p.upcoming.Moves us (p.form kind).2.upcoming)
    (ht : (p.form kind).2.upcoming.tokens = []) :
    ¬ IsForm p.rules kind (us.map (·.token.lexeme)) := by
  intro hform
  have htokens : p.upcoming.tokens = us := by rw [hm.tokens, ht, List.append_nil]
  obtain ⟨n, hn⟩ := hform.isReadAlone p rfl ho (by rw [htokens])
  cases h.symm.trans (congrArg Prod.fst hn)

theorem form_failsFirst (ho : p.opened = 0) (hd : 0 < p.rules.maxDepth)
    (hne : p.upcoming.tokens ≠ []) (hord : p.upcoming.Ordered)
    (h : (p.form (.ofLexeme p.upcoming.lexeme)).1 = .error f)
    (hn : ∀ limit, f.fault ≠ .nestingTooDeep limit)
    (hm : p.upcoming.Moves us (p.form (.ofLexeme p.upcoming.lexeme)).2.upcoming) :
    FailsFirst p.rules (.ofLexeme p.upcoming.lexeme) (us.map (·.token.lexeme))
      f.token.token.lexeme := by
  have htoken := form_error h
  have hend : f.token.token.lexeme = .endOfInput ↔
      (p.form (.ofLexeme p.upcoming.lexeme)).2.upcoming.tokens = [] := by
    rw [htoken]
    exact Upcoming.lexeme_eq_endOfInput_iff (hord.of_moves hm).ne_endOfInput
  constructor
  case completable =>
    obtain ⟨F, ts, hF, hk, ht⟩ := form_completes ho hd h hn hm
    have hform : IsForm p.rules (.ofLexeme p.upcoming.lexeme)
        (us.map (·.token.lexeme) ++ ts.map (·.lexeme)) :=
      ⟨F, hF, hk, by simp [ht, Function.comp_def]⟩
    exact ⟨_, hform, hform.isReadAlone⟩
  case refused =>
    intro hl more
    obtain ⟨t, rest, ht⟩ := List.exists_cons_of_ne_nil (mt hend.2 hl)
    rw [htoken, Upcoming.head_of_tokens ht]
    exact form_refuses ho hne h hm ht more
  case incomplete =>
    intro hl
    exact form_incomplete ho h hm (hend.1 hl)

end Parser

/-- A turn that fails does so at the first token that its form cannot go on with. -/
theorem Turn.Sound.failsFirst {τ : Turn} (h : τ.Sound) (ho : τ.before.opened = 0)
    (hd : 0 < τ.before.rules.maxDepth) (hord : τ.before.upcoming.Ordered) {kind : FormKind}
    {f : Failure} (hr : τ.result = some ⟨kind, .error f⟩)
    (hn : ∀ limit, f.fault ≠ .nestingTooDeep limit) :
    ∃ us, τ.span = us ++ [f.token] ∧
      FailsFirst τ.before.rules kind (us.map (·.token.lexeme)) f.token.token.lexeme := by
  cases h with
  | semicolon => cases hr
  | success => cases hr
  | @failure p q g us _ hf hm _ _ hne =>
    obtain ⟨rfl, rfl⟩ : _ = kind ∧ g = f := by simpa using hr
    have hm' : p.upcoming.Moves us (p.form (.ofLexeme p.upcoming.lexeme)).2.upcoming := by
      rwa [hf]
    exact ⟨us, rfl, Parser.form_failsFirst ho hd hne hord (congrArg Prod.fst hf) hn hm'⟩

namespace Session

/-- Every failure of a run shows at the earliest token possible. -/
structure FailsEarly (s : Session) : Prop where
  /-- The tokens that were the lookahead are those of the turns, in order, and one more. -/
  consumed : Event.scans s.drain.1 =
    s.turns.flatMap Turn.span ++ [s.drain.2.parser.upcoming.head]
  results : Event.results s.drain.1 = s.turns.filterMap Turn.result
  /-- A turn that fails has taken what could be completed, but not with the token that it fails
  at, which is the last that it takes. -/
  early : ∀ τ ∈ s.turns, ∀ kind f, τ.result = some ⟨kind, .error f⟩ →
    (∀ limit, f.fault ≠ .nestingTooDeep limit) → ∃ us, τ.span = us ++ [f.token] ∧
      FailsFirst s.parser.rules kind (us.map (·.token.lexeme)) f.token.token.lexeme

theorem start_failsEarly {R : Rules} (hd : 0 < R.maxDepth) (maxErrors : Int) (file : String)
    (answers : List (Option Char)) (remembersEnd : Bool) :
    (start R maxErrors file (.ofAnswers answers remembersEnd)).FailsEarly := by
  have ho := Upcoming.ofAnswers_ordered file answers remembersEnd
  generalize Source.ofAnswers answers remembersEnd = source at ho
  have hw := primed_walks R maxErrors ho
  constructor
  case consumed => exact start_scans ho
  case results => exact start_results ho
  case early =>
    rw [start_turns]
    intro τ hτ kind f hr hn
    obtain ⟨⟨us, hm⟩, hrules, hopened⟩ := hw.walk.exists_moves τ hτ
    change τ.before.rules = R at hrules
    have := (hw.walk.sound τ hτ).failsFirst hopened (by rwa [hrules]) (ho.of_moves hm) hr hn
    rwa [hrules] at this

/-- Under all options, and whatever the answers of the source are, every failure shows at the
earliest token possible. -/
theorem ofOptions_failsEarly {o : Options} {file : String} {answers : List (Option Char)}
    {remembersEnd : Bool} {s : Session}
    (h : ofOptions o file (.ofAnswers answers remembersEnd) = .ok s) : s.FailsEarly := by
  obtain ⟨R, hR, rfl⟩ := Except.map_eq_ok_iff.1 h
  exact start_failsEarly (Options.maxDepth_pos hR) o.maxErrors file answers remembersEnd

/-- A run under the standard options whose only form fails behind an operator. -/
theorem failsEarly_behind_operator :
    ∃ s, ofOptions .standard "p" (.ofAnswers ("f(1, 2 +".toList.map some) true) = .ok s ∧
      s.FailsEarly := by
  have h : ofOptions .standard "p" (.ofAnswers ("f(1, 2 +".toList.map some) true) =
      .ok (start ⟨PrecedenceTable.standard.freeze, 256, true⟩ Collector.standardMaxErrors "p"
        (.ofAnswers ("f(1, 2 +".toList.map some) true)) := rfl
  exact ⟨_, h, ofOptions_failsEarly h⟩

end Session

end OperatorGrammar
