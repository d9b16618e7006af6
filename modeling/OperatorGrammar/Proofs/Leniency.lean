import OperatorGrammar.Proofs.Depth
import OperatorGrammar.Proofs.Truncation
import OperatorGrammar.Proofs.Turn.Alike

/-!
What strictness about numbers does. A reading is the same whether numbers are strict or not, unless
it fails, being strict, at a number that is not well formed. And being lenient is the same as being
strict about a text whose numbers have been cut down to what is well formed of them. Main
statements: `Parser.form_refusesOnly`, `Session.start_drain_lenient` and
`Session.ofOptions_lenient`.
-/

namespace OperatorGrammar

/-- The same rules, strict about numbers or not. -/
def Rules.withStrictNumbers (strict : Bool) (R : Rules) : Rules :=
  { R with strictNumbers := strict }

/-- Whether the fault is in a number. -/
def Fault.isMalformedNumber : Fault → Bool
  | malformedNumber _ => true
  | _ => false

/-- The failure shows at a number that the rules refuse. -/
def Failure.Refuses (R : Rules) (f : Failure) : Prop :=
  ∃ text, f.fault = .malformedNumber text ∧ f.token.token.lexeme = .number text ∧
    R.acceptsNumber text = false

variable {R : Rules}

/-! ## Expressions -/

namespace Expression.Reader

variable {r : Reader} {t : Token} {last : Scanned} {ts : List Scanned}

theorem operandFault_isMalformedNumber {l : Lexeme} (h : ∀ text, l ≠ .number text) :
    (operandFault l).isMalformedNumber = false := by
  unfold operandFault
  split
  · exact absurd rfl (h _)
  · rfl

theorem endOn_isMalformedNumber {e : Node} {l : Lexeme} {fault : Fault}
    (h : r.endOn R e l = .error fault) : fault.isMalformedNumber = false := by
  unfold endOn at h
  split at h
  · split at h
    · obtain rfl := Except.error.inj h
      rfl
    · cases h
  · obtain rfl := Except.error.inj h
    rfl
  · obtain rfl := Except.error.inj h
    rfl

/-- A token is to be the first of an operand, or strictness has no part in how it is read. -/
theorem operand_or (R : Rules) (r : Reader) (t : Token) :
    (∃ q : Reader, (∀ strict, r.read? (R.withStrictNumbers strict) t =
          q.readOperand? (R.withStrictNumbers strict) t) ∧
        r.endBefore R t.lexeme = .error (operandFault t.lexeme)) ∨
      (∀ strict, r.read? (R.withStrictNumbers strict) t = r.read? R t) ∧
        ∀ fault, r.endBefore R t.lexeme = .error fault → fault.isMalformedNumber = false := by
  by_cases hen : r.EntersWith t.lexeme
  · rw [endBefore_of_entersWith hen, entryFault]
    by_cases ho : r.opened < R.maxDepth
    · refine .inl ⟨r.entered, ?_, by rw [if_pos ho]⟩
      intro strict
      have ho' : r.opened < (R.withStrictNumbers strict).maxDepth := ho
      rw [read?_of_entersWith hen, if_pos ho']
    · refine .inr ⟨?_, ?_⟩
      · intro strict
        have ho' : ¬ r.opened < (R.withStrictNumbers strict).maxDepth := ho
        rw [read?_of_entersWith hen, read?_of_entersWith hen, if_neg ho, if_neg ho']
      · intro fault hf
        rw [if_neg ho] at hf
        obtain rfl := Except.error.inj hf
        rfl
  · unfold read? endBefore
    cases hp : r.progress with
    | entering => exact absurd (.inl hp) hen
    | operand => exact .inl ⟨r, fun _ => rfl, rfl⟩
    | arguments f l =>
      have hl : t.lexeme = .char ')' := by
        by_contra hl
        exact hen (.inr ⟨⟨f, l, hp⟩, hl⟩)
      have hc : t.isChar ')' = true := by simpa [Token.isChar] using hl
      refine .inr ⟨fun strict => ?_, ?_⟩
      · dsimp only
        rw [if_pos hc, if_pos hc]
      · intro fault hf
        obtain rfl := Except.error.inj hf
        rw [entryFault, hl]
        split <;> rfl
    | named x l => exact .inr ⟨fun _ => rfl, fun _ => endOn_isMalformedNumber⟩
    | complete e => exact .inr ⟨fun _ => rfl, fun _ => endOn_isMalformedNumber⟩

/-- A token is read alike where numbers are lenient, or it is a number that is refused. -/
theorem read?_lenient (R : Rules) (r : Reader) (t : Token) :
    (r.read? (R.withStrictNumbers false) t = r.read? R t ∧
      (r.read? R t = none → ∀ fault, r.endBefore R t.lexeme = .error fault →
        fault.isMalformedNumber = false)) ∨
    ∃ text, t.lexeme = .number text ∧ R.acceptsNumber text = false ∧ r.read? R t = none ∧
      r.endBefore R t.lexeme = .error (.malformedNumber text) := by
  rcases operand_or R r t with ⟨q, hq, hend⟩ | ⟨hsame, hend⟩
  · have hR : r.read? R t = q.readOperand? R t := hq R.strictNumbers
    rw [hq, hR, hend]
    obtain ⟨lexeme, l⟩ := t
    cases lexeme with
    | number text =>
      by_cases ha : R.acceptsNumber text = true
      · have hlenient : (R.withStrictNumbers false).acceptsNumber text = true := rfl
        refine .inl ⟨by simp only [readOperand?, ha, hlenient], ?_⟩
        intro hn
        simp [readOperand?, ha] at hn
      · rw [Bool.not_eq_true] at ha
        exact .inr ⟨text, rfl, ha, by simp [readOperand?, ha], rfl⟩
    | _ =>
      refine .inl ⟨rfl, fun _ fault hf => ?_⟩
      obtain rfl := Except.error.inj hf
      rfl
  · exact .inl ⟨hsame false, fun _ => hend⟩

/-- What is read is read alike where numbers are lenient, or the reading fails at a number that is
refused. -/
theorem runOn_lenient (R : Rules) (hl : last.token.lexeme = .endOfInput) (r : Reader)
    (ts : List Scanned) :
    (r.runOn (R.withStrictNumbers false) last ts = r.runOn R last ts ∧
      ∀ f, (r.runOn R last ts).result = .error f → f.fault.isMalformedNumber = false) ∨
    ∃ f, (r.runOn R last ts).result = .error f ∧ f.Refuses R := by
  induction ts generalizing r with
  | nil =>
    refine .inl ⟨rfl, ?_⟩
    intro f hf
    obtain ⟨fault, he, rfl⟩ := Except.mapError_eq_error_iff.1 hf
    rcases operand_or R r last.token with ⟨q, -, hend⟩ | ⟨-, hend⟩
    · obtain rfl := Except.error.inj (hend.symm.trans he)
      exact operandFault_isMalformedNumber (by simp [hl])
    · exact hend fault he
  | cons t ts ih =>
    rcases read?_lenient R r t.token with ⟨hread, hend⟩ | ⟨text, ht, ha, hread, hend⟩
    · simp only [runOn, hread]
      cases hq : r.read? R t.token with
      | some q => exact ih q
      | none =>
        refine .inl ⟨rfl, ?_⟩
        intro f hf
        obtain ⟨fault, he, rfl⟩ := Except.mapError_eq_error_iff.1 hf
        exact hend hq fault he
    · right
      simp only [runOn, hread, hend]
      exact ⟨_, rfl, text, rfl, ht, ha⟩

end Expression.Reader

/-! ## Forms -/

namespace Parser

variable {p : Parser} {kind : FormKind}

/-- A reading is the same where numbers are lenient, and fails at no number because of its text; or
it fails at a number that is refused. -/
def RefusesOnly (p : Parser) (read : Parser → Except Failure Node × Parser) : Prop :=
  (p.SameUnder (p.rules.withStrictNumbers false) read ∧
    ∀ f, (read p).1 = .error f → f.fault.isMalformedNumber = false) ∨
  ∃ f, (read p).1 = .error f ∧ f.Refuses p.rules

theorem expression_refusesOnly (p : Parser) : p.RefusesOnly expression := by
  rcases Expression.Reader.runOn_lenient p.rules p.upcoming.last_lexeme (.expression p.opened)
    p.upcoming.tokens with ⟨hrun, hn⟩ | hrefuses
  · exact .inl ⟨expression_under hrun, hn⟩
  · exact .inr hrefuses

/-- Being strict about numbers refuses some of them in forms and makes no other difference. -/
theorem form_refusesOnly (p : Parser) (kind : FormKind) : p.RefusesOnly (form · kind) := by
  cases hb : p.body? kind with
  | none =>
    refine .inl ⟨form_of_no_body hb _, ?_⟩
    intro f hf
    rcases fault_of_no_body hb hf with ⟨expected, h⟩ | ⟨name, h⟩ <;> rw [h] <;> rfl
  | some b =>
    have hrules : b.rules = p.rules := by rw [body?_keeps hb]
    obtain ⟨wrap, hform, -⟩ := form_of_body hb (p.rules.withStrictNumbers false)
    rcases b.expression_refusesOnly with ⟨hsame, hn⟩ | ⟨f, hf, hrefuses⟩
    · refine .inl ⟨form_under kind fun c hc => ?_, ?_⟩
      · obtain rfl := Option.some.inj (hb.symm.trans hc)
        rwa [hrules] at hsame
      · intro f hf
        change (p.form kind).1 = .error f at hf
        rw [hform] at hf
        exact hn f (Except.map_eq_error_iff.1 hf)
    · rw [hrules] at hrefuses
      refine .inr ⟨f, ?_, hrefuses⟩
      show (p.form kind).1 = .error f
      rw [hform]
      exact Except.map_eq_error_iff.2 hf

end Parser

/-! ## Runs -/

/-- The same tree, or the same fault at the same place. -/
inductive FormResult.Coincides : FormResult → FormResult → Prop where
  | ok (kind : FormKind) (n : Node) : Coincides ⟨kind, .ok n⟩ ⟨kind, .ok n⟩
  | error (kind : FormKind) {f f' : Failure} : f'.fault = f.fault → f'.location = f.location →
    Coincides ⟨kind, .error f⟩ ⟨kind, .error f'⟩

/-- Whether the result is a failure because of a number's text. -/
def FormResult.isMalformedNumber (r : FormResult) : Bool :=
  r.failure?.any (·.fault.isMalformedNumber)

theorem FormResult.isMalformedNumber_eq_false {r : FormResult} :
    r.isMalformedNumber = false ↔
      ∀ f, r.outcome = .error f → f.fault.isMalformedNumber = false := by
  unfold isMalformedNumber failure?
  cases r.outcome <;> simp

theorem Options.rules_withStrictNumbers {o : Options} (h : o.rules = .ok R) (strict : Bool) :
    ({ o with strictNumbers := strict } : Options).rules = .ok (R.withStrictNumbers strict) := by
  obtain ⟨depth, hd, rfl⟩ := Except.map_eq_ok_iff.1 h
  exact Except.map_eq_ok_iff.2 ⟨depth, hd, rfl⟩

/-! ## Numbers that are cut down -/

/-- Numbers that are cut down are read alike where numbers are lenient. -/
theorem Rules.pairs_truncates (h : R.strictNumbers = false) : R.Pairs id Scanned.Truncates where
  lexeme ht := ht.lexeme.readsAs h
  location ht := ht.location

theorem FormResult.Alike.coincides {r r' : FormResult} (h : r.Alike Scanned.Truncates id r') :
    r.Coincides r' := by
  obtain ⟨kind, outcome⟩ := r
  obtain ⟨kind', outcome'⟩ := r'
  obtain ⟨rfl, hr⟩ := h
  cases hr with
  | ok n =>
    rw [Node.relocate_id]
    exact .ok _ n
  | error hfault ht => exact .error _ hfault ht.location

namespace Session

variable {maxErrors : Int} {file : String} {source : Source}

/-- A run that fails at no number because of its text is the same where numbers are lenient. -/
theorem start_drain_lenient
    (h : ∀ r ∈ (start R maxErrors file source).results, r.isMalformedNumber = false) :
    (start (R.withStrictNumbers false) maxErrors file source).drain =
      ((start R maxErrors file source).drain.1,
        (start R maxErrors file source).drain.2.under (R.withStrictNumbers false)) := by
  refine drain_under (s := start R maxErrors file source) (R.withStrictNumbers false)
    (fun x => ∀ f, x = .error f → f.fault.isMalformedNumber = false) ?_ rfl rfl
    fun r hr => FormResult.isMalformedNumber_eq_false.1 (h r hr)
  rintro p kind rfl - hn
  rcases p.form_refusesOnly kind with ⟨hsame, -⟩ | ⟨f, hf, text, hfault, -⟩
  · exact hsame
  · have hmalformed := hn f hf
    rw [hfault] at hmalformed
    cases hmalformed

theorem start_results_lenient
    (h : ∀ r ∈ (start R maxErrors file source).results, r.isMalformedNumber = false) :
    (start (R.withStrictNumbers false) maxErrors file source).results =
      (start R maxErrors file source).results := by
  rw [results, start_drain_lenient h]
  rfl

/-- A run over numbers that are accepted fails at none of them because of its text. -/
theorem start_isMalformedNumber (maxErrors : Int) (ho : (Upcoming.ofSource file source).Ordered)
    (h : ∀ t ∈ (Upcoming.ofSource file source).tokens, ∀ text,
      t.token.lexeme = .number text → R.acceptsNumber text = true) :
    ∀ r ∈ (start R maxErrors file source).results, r.isMalformedNumber = false := by
  intro r hr
  rw [FormResult.isMalformedNumber_eq_false]
  intro f hf
  obtain ⟨hmem, p, rfl, hform⟩ := start_failure ho hr hf
  rcases p.form_refusesOnly r.kind with ⟨-, hn⟩ | ⟨g, hg, text, -, hlexeme, hrefused⟩
  · exact hn f hform
  · obtain rfl : f = g := Except.error.inj (hform.symm.trans hg)
    -- the end of the input is no number, so the number is one of the tokens
    rcases List.mem_append.1 hmem with hmem | hmem
    · cases (h _ hmem text hlexeme).symm.trans hrefused
    · rw [List.mem_singleton.1 hmem, Upcoming.last_lexeme] at hlexeme
      cases hlexeme

open Scanner

/-- A run with lenient numbers gives what one with strict numbers gives on the text that is cut
down, and that one fails at no number because of its text. -/
theorem start_results_truncate {text : String} (h : Parted (cuts [] text.toList)) (R : Rules)
    (maxErrors : Int) (file : String) :
    List.Forall₂ FormResult.Coincides
        (start (R.withStrictNumbers false) maxErrors file (.ofString text)).results
        (start (R.withStrictNumbers true) maxErrors file (.ofString (truncate text))).results ∧
      ∀ r ∈ (start (R.withStrictNumbers true) maxErrors file (.ofString (truncate text))).results,
        r.isMalformedNumber = false := by
  have hpaired := Upcoming.paired_truncates h file
  have hn := start_isMalformedNumber (R := R.withStrictNumbers true) maxErrors
    (Upcoming.ofString_ordered file (truncate text))
    fun t ht x => Upcoming.isWellFormed_of_mem_truncate h ht
  refine ⟨?_, hn⟩
  -- on the text that is cut down, strictness makes no difference
  have hsame : (start (R.withStrictNumbers false) maxErrors file
        (.ofString (truncate text))).results =
      (start (R.withStrictNumbers true) maxErrors file (.ofString (truncate text))).results :=
    start_results_lenient hn
  have hlenient := start_results_alike (R := R.withStrictNumbers false)
    (Rules.pairs_truncates rfl) hpaired maxErrors
  rw [hsame] at hlenient
  exact hlenient.imp fun r r' hr => hr.coincides

/-- Being lenient about numbers is being strict about numbers that are cut down. Unless one of which
nothing is well formed stands directly behind a name or a keyword, a run with lenient numbers gives
what one with strict numbers gives on the text that is cut down. And wherever a run with strict
numbers fails at none because of its text, the one with lenient numbers is the same. -/
theorem ofOptions_lenient {o : Options} {file text : String} {s : Session}
    (h : ofOptions { o with strictNumbers := false } file (.ofString text) = .ok s) :
    (Parted (cuts [] text.toList) → ∃ t,
        ofOptions { o with strictNumbers := true } file (.ofString (truncate text)) = .ok t ∧
          List.Forall₂ FormResult.Coincides s.results t.results ∧
          ∀ r ∈ t.results, r.isMalformedNumber = false) ∧
      ∃ t, ofOptions { o with strictNumbers := true } file (.ofString text) = .ok t ∧
        ((∀ r ∈ t.results, r.isMalformedNumber = false) →
          s.drain.1 = t.drain.1 ∧ s.drain.2.collector = t.drain.2.collector) := by
  obtain ⟨R, hR, rfl⟩ := Except.map_eq_ok_iff.1 h
  have hlenient : R = (R.withStrictNumbers true).withStrictNumbers false := by
    obtain ⟨-, rfl⟩ := Options.rules_of_ok hR
    rfl
  have hstrict : ∀ source, ofOptions { o with strictNumbers := true } file source =
      .ok (start (R.withStrictNumbers true) o.maxErrors file source) :=
    fun source => Except.map_eq_ok_iff.2 ⟨_, Options.rules_withStrictNumbers hR true, rfl⟩
  constructor
  · intro hp
    have hresults := start_results_truncate hp R o.maxErrors file
    rw [show R.withStrictNumbers false = R from hlenient.symm] at hresults
    exact ⟨_, hstrict _, hresults⟩
  · refine ⟨_, hstrict _, fun hn => ?_⟩
    have hdrain := start_drain_lenient hn
    rw [← hlenient] at hdrain
    rw [hdrain]
    exact ⟨rfl, rfl⟩

/-- Two calls under the standard options: one with numbers that are cut down, and one with a number
that no argument goes on with. -/
theorem lenient_calls_with_points :
    (∃ s t, ofOptions { Options.standard with strictNumbers := false } "p"
          (.ofString "f(1.2.3, ..) x .") = .ok s ∧
        ofOptions { Options.standard with strictNumbers := true } "p"
          (.ofString "f(1.2  , 0 ) x 0") = .ok t ∧
        List.Forall₂ FormResult.Coincides s.results t.results ∧
        ∀ r ∈ t.results, r.isMalformedNumber = false) ∧
      ∃ s t, ofOptions { Options.standard with strictNumbers := false } "p"
          (.ofString "f(1 2..3) g") = .ok s ∧
        ofOptions { Options.standard with strictNumbers := true } "p"
          (.ofString "f(1 2..3) g") = .ok t ∧
        s.drain.1 = t.drain.1 ∧ s.drain.2.collector = t.drain.2.collector := by
  have hlenient : ∀ text, ofOptions { Options.standard with strictNumbers := false } "p"
      (.ofString text) = .ok (start ⟨PrecedenceTable.standard.freeze, 256, false⟩
        Collector.standardMaxErrors "p" (.ofString text)) := fun _ => rfl
  have hstrict : ∀ text, ofOptions { Options.standard with strictNumbers := true } "p"
      (.ofString text) = .ok (start ⟨PrecedenceTable.standard.freeze, 256, true⟩
        Collector.standardMaxErrors "p" (.ofString text)) := fun _ => rfl
  constructor
  · have hp : Parted (cuts [] "f(1.2.3, ..) x .".toList) := by
      unfold Parted
      decide +kernel
    have ht : truncate "f(1.2.3, ..) x ." = "f(1.2  , 0 ) x 0" := by decide +kernel
    obtain ⟨t, hto, hresults⟩ := (ofOptions_lenient (hlenient "f(1.2.3, ..) x .")).1 hp
    rw [ht] at hto
    exact ⟨_, t, hlenient _, hto, hresults⟩
  · obtain ⟨t, hto, hsame⟩ := (ofOptions_lenient (hlenient "f(1 2..3) g")).2
    obtain rfl := Except.ok.inj ((hstrict "f(1 2..3) g").symm.trans hto)
    have hn : ((start ⟨PrecedenceTable.standard.freeze, 256, true⟩ Collector.standardMaxErrors "p"
        (.ofString "f(1 2..3) g")).results.all fun r => !r.isMalformedNumber) = true := by
      decide +kernel
    refine ⟨_, _, hlenient _, hto, hsame fun r hr => ?_⟩
    simpa using List.all_eq_true.1 hn r hr

/-- A point directly behind a name is a zero, but a zero in its place is part of the name. -/
theorem lenient_point_behind_name :
    ¬ ∀ text s t, ofOptions { Options.standard with strictNumbers := false } "<input>"
        (.ofString text) = .ok s → s.drain.2.collector.shouldStop = false →
      ofOptions { Options.standard with strictNumbers := true } "<input>"
        (.ofString (truncate text)) = .ok t →
      List.Forall₂ FormResult.Coincides s.results t.results := by
  intro h
  have hlength := (h "a." _ _ rfl (by decide +kernel) rfl).length_eq
  exact absurd hlength (by decide +kernel)

end Session

end OperatorGrammar
