import OperatorGrammar.Proofs.Grammar.Reading

/-!
What has been taken in is the beginning of an expression. The reader's levels, its chain and its
progress account for every token, in order and by phrases that fit, so a reader that comes to the
end of an expression has read a phrase that stands for the tree it hands out. Main statements:
`Reader.Begun.read` and `Reader.Begun.expression`.
-/

namespace OperatorGrammar

namespace Expression

/-- The tokens of a chain whose operands fit `depth`: each operand with the operator behind it. -/
inductive Chain.Spells (R : Rules) (depth : Nat) : Chain → List Token → Prop where
  | nil : Spells R depth [] []
  | cons {c : Chain} {ts : List Token} {p : Phrase .primary} {o : Char} {l : Location} :
    Spells R depth c ts → p.Fits R depth → 0 < R.table.precedence o →
      Spells R depth ((p.meaning R, ⟨o.toString, R.table.precedence o, l⟩) :: c)
        (ts ++ p.tokens ++ [⟨.char o, l⟩])

/-- The tokens of arguments, the latest first, each with the comma behind it. -/
inductive ArgumentsSpelled (R : Rules) (depth : Nat) : List Node → List Token → Prop where
  | nil : ArgumentsSpelled R depth [] []
  | cons {as : List Node} {ts : List Token} {e : Phrase .expression} {l : Location} :
    ArgumentsSpelled R depth as ts → e.Fits R depth →
      ArgumentsSpelled R depth (e.meaning R :: as) (ts ++ e.tokens ++ [⟨.char ',', l⟩])

/-- The tokens of the levels, where `outside` expressions are open around the outermost. -/
inductive LevelsSpelled (R : Rules) (outside : Nat) : List Level → List Token → Prop where
  | nil : LevelsSpelled R outside [] []
  | group {levels : List Level} {c : Chain} {us vs : List Token} {l : Location} :
    LevelsSpelled R outside levels us →
      c.Spells R (R.maxDepth - (outside + levels.length + 1)) vs →
      LevelsSpelled R outside (⟨c, .group⟩ :: levels) (us ++ vs ++ [⟨.char '(', l⟩])
  | call {levels : List Level} {c : Chain} {as : List Node} {us vs ws : List Token} {f : String}
    {l l' : Location} :
    LevelsSpelled R outside levels us →
      c.Spells R (R.maxDepth - (outside + levels.length + 1)) vs →
      ArgumentsSpelled R (R.maxDepth - (outside + levels.length + 1)) as ws →
      LevelsSpelled R outside (⟨c, .call (.text f) l as⟩ :: levels)
        (us ++ vs ++ (⟨.identifier f, l⟩ :: ⟨.char '(', l'⟩ :: ws))

/-- The tokens behind the chain of an expression that has been opened. -/
def Progress.Spells (R : Rules) (depth : Nat) : Progress → List Token → Prop
  | .entering, _ => False
  | .operand, ts => ts = []
  | .arguments f l, ts => ∃ x l', f = .text x ∧ ts = [⟨.identifier x, l⟩, ⟨.char '(', l'⟩]
  | .named x l, ts => ∃ y, x = .text y ∧ ts = [⟨.identifier y, l⟩]
  | .complete e, ts => ∃ p : Phrase .primary, p.Fits R depth ∧ p.meaning R = e ∧ ts = p.tokens

/-- A reader of an expression, around which `outside` others are open, that has taken in tokens. -/
inductive Reader.Begun (R : Rules) (outside : Nat) : Reader → List Token → Prop where
  | entering {levels : List Level} {us : List Token} :
    LevelsSpelled R outside levels us →
      Begun R outside ⟨.expression, levels, [], .entering, outside + levels.length⟩ us
  | inside {levels : List Level} {c : Chain} {progress : Progress} {us vs ws : List Token} :
    LevelsSpelled R outside levels us → outside + levels.length < R.maxDepth →
      c.Spells R (R.maxDepth - (outside + levels.length + 1)) vs →
      progress.Spells R (R.maxDepth - (outside + levels.length + 1)) ws →
      Begun R outside ⟨.expression, levels, c, progress, outside + levels.length + 1⟩
        (us ++ vs ++ ws)

variable {R : Rules} {outside depth : Nat}

/-! ## Phrases out of what is spelled -/

/-- A complete operand is a primary. -/
theorem Progress.Spells.primary {progress : Progress} {ts : List Token} {e : Node}
    (h : progress.Spells R depth ts) (he : progress.operand? = some e) :
    ∃ p : Phrase .primary, p.Fits R depth ∧ p.meaning R = e ∧ ts = p.tokens := by
  cases progress with
  | named x l =>
    obtain ⟨y, rfl, rfl⟩ := h
    obtain rfl : .reference (.text y) (some l) = e := by simpa [Progress.operand?] using he
    exact ⟨.name y l, by simp, rfl, rfl⟩
  | complete d =>
    obtain rfl : d = e := by simpa [Progress.operand?] using he
    exact h
  | _ => simp [Progress.operand?] at he

theorem Chain.Spells.foldl {c : Chain} {ts : List Token} (h : c.Spells R depth ts)
    (p : Phrase .primary) (ps : Phrase .rest) (hp : p.Fits R depth) (hps : ps.Fits R depth) :
    ∃ (q : Phrase .primary) (qs : Phrase .rest), q.Fits R depth ∧ qs.Fits R depth ∧
      q.tokens ++ qs.tokens = ts ++ (p.tokens ++ ps.tokens) ∧
      c.foldl Chain.front (p.meaning R, ps.meaning R) = (q.meaning R, qs.meaning R) := by
  induction h generalizing p ps with
  | nil => exact ⟨p, ps, hp, hps, rfl, rfl⟩
  | @cons c ts p' o l hc hp' ho ih =>
    -- the latest operand of the chain becomes the first, and what was first goes into the rest
    obtain ⟨q, qs, hq, hqs, ht, hm⟩ :=
      ih p' (.operator o l p ps) hp' (Phrase.fits_operator.2 ⟨ho, hp, hps⟩)
    refine ⟨q, qs, hq, hqs, ?_, hm⟩
    rw [ht]
    simp

/-- A chain with its last operand is an expression. -/
theorem Chain.Spells.expression {c : Chain} {ts : List Token} (h : c.Spells R depth ts)
    {p : Phrase .primary} (hp : p.Fits R depth) :
    ∃ e : Phrase .expression, e.Fits R (depth + 1) ∧ e.tokens = ts ++ p.tokens ∧
      e.meaning R = c.close (p.meaning R) := by
  obtain ⟨q, qs, hq, hqs, ht, hm⟩ := h.foldl p .nothing hp (by simp)
  refine ⟨.chain q qs, Phrase.fits_chain.2 ⟨hq, hqs⟩, by simpa using ht, ?_⟩
  simp only [Chain.close, Chain.inOrder_eq, Phrase.meaning] at hm ⊢
  rw [hm]

theorem ArgumentsSpelled.arguments {as : List Node} {ts : List Token}
    (h : ArgumentsSpelled R depth as ts) (es : Phrase .arguments) (hes : es.Fits R depth) :
    ∃ fs : Phrase .arguments, fs.Fits R depth ∧ fs.tokens = ts ++ es.tokens ∧
      fs.meaning R = as.reverse ++ es.meaning R := by
  induction h generalizing es with
  | nil => exact ⟨es, hes, rfl, rfl⟩
  | @cons as ts e l has he ih =>
    obtain ⟨fs, hf, ht, hm⟩ := ih (.arguments e l es) (Phrase.fits_arguments.2 ⟨he, hes⟩)
    exact ⟨fs, hf, by simp [ht], by simp [hm]⟩

namespace Reader

variable {r r' : Reader} {t : Token} {ts : List Token}

theorem begun_expression (R : Rules) (outside : Nat) :
    Begun R outside (Reader.expression outside) [] :=
  .entering .nil

/-! ## One token -/

/-- An operand has been asked for, and its first token is taken in. -/
theorem Begun.readOperand {levels : List Level} {c : Chain} {progress : Progress}
    {us vs : List Token} (hu : LevelsSpelled R outside levels us)
    (ho : outside + levels.length < R.maxDepth)
    (hc : c.Spells R (R.maxDepth - (outside + levels.length + 1)) vs)
    (h : readOperand? R ⟨.expression, levels, c, progress, outside + levels.length + 1⟩ t = some r') :
    Begun R outside r' (us ++ vs ++ [t]) := by
  obtain ⟨lexeme, l⟩ := t
  unfold readOperand? at h
  cases lexeme with
  | identifier x =>
    obtain rfl := Option.some.inj h
    exact .inside hu ho hc ⟨x, rfl, rfl⟩
  | number text =>
    by_cases ha : R.acceptsNumber text = true
    · obtain rfl := Option.some.inj (by simpa [ha] using h)
      exact .inside hu ho hc ⟨.number text l, Phrase.fits_number.2 ha, rfl, rfl⟩
    · simp [ha] at h
  | char o =>
    by_cases hp : o = '('
    · subst hp
      obtain rfl := Option.some.inj (by simpa using h)
      exact .entering (.group hu hc)
    · simp [hp] at h
  | _ => simp at h

theorem Begun.enter {levels : List Level} {us : List Token}
    (hu : LevelsSpelled R outside levels us)
    (h : ((⟨.expression, levels, [], .entering, outside + levels.length⟩ : Reader).enter? R).bind
      (readOperand? R · t) = some r') :
    Begun R outside r' (us ++ [t]) := by
  by_cases ho : outside + levels.length < R.maxDepth
  · have h := Begun.readOperand hu ho .nil (by simpa [enter?, ho] using h)
    simpa using h
  · simp [enter?, ho] at h

/-- The parenthesis around an expression is closed. -/
theorem Begun.closeGroup {levels : List Level} {outer : Chain} {us : List Token}
    {inner : Phrase .expression} (hu : LevelsSpelled R outside (⟨outer, .group⟩ :: levels) us)
    (ho : outside + levels.length < R.maxDepth)
    (hi : inner.Fits R (R.maxDepth - (outside + levels.length + 1))) (l : Location) :
    Begun R outside
      ⟨.expression, levels, outer, .complete (inner.meaning R), outside + levels.length + 1⟩
      (us ++ inner.tokens ++ [⟨.char ')', l⟩]) := by
  cases hu with
  | @group _ _ us' vs' l' hu' hc' =>
    have hts : us' ++ vs' ++ [⟨.char '(', l'⟩] ++ inner.tokens ++ [⟨.char ')', l⟩] =
        us' ++ vs' ++ (Phrase.group l' inner l).tokens := by
      simp
    rw [hts]
    exact .inside hu' ho hc' ⟨.group l' inner l, Phrase.fits_group.2 hi, rfl, rfl⟩

/-- The parenthesis of a call is closed behind its last argument. -/
theorem Begun.closeCall {levels : List Level} {outer : Chain} {us : List Token} {f : Value}
    {lf : Location} {as : List Node} {inner : Phrase .expression}
    (hu : LevelsSpelled R outside (⟨outer, .call f lf as⟩ :: levels) us)
    (ho : outside + levels.length < R.maxDepth)
    (hi : inner.Fits R (R.maxDepth - (outside + levels.length + 1))) (l : Location) :
    Begun R outside
      ⟨.expression, levels, outer,
        .complete (.call f (as.reverse ++ [inner.meaning R]) (some lf)), outside + levels.length + 1⟩
      (us ++ inner.tokens ++ [⟨.char ')', l⟩]) := by
  cases hu with
  | @call _ _ _ us' vs' ws' f _ l' hu' hc' has =>
    obtain ⟨fs, hf, hft, hfm⟩ := has.arguments (.argument inner) (Phrase.fits_argument.2 hi)
    have hts : us' ++ vs' ++ (⟨.identifier f, lf⟩ :: ⟨.char '(', l'⟩ :: ws') ++ inner.tokens ++
        [⟨.char ')', l⟩] = us' ++ vs' ++ (Phrase.call f lf l' fs l).tokens := by
      simp [hft]
    rw [hts]
    exact .inside hu' ho hc' ⟨.call f lf l' fs l, Phrase.fits_call.2 hf, by simp [hfm], rfl⟩

/-- A comma parts an argument from the next. -/
theorem Begun.comma {levels : List Level} {outer : Chain} {us : List Token} {f : Value}
    {lf : Location} {as : List Node} {inner : Phrase .expression}
    (hu : LevelsSpelled R outside (⟨outer, .call f lf as⟩ :: levels) us)
    (hi : inner.Fits R (R.maxDepth - (outside + levels.length + 1))) (l : Location) :
    Begun R outside
      ⟨.expression, ⟨outer, .call f lf (inner.meaning R :: as)⟩ :: levels, [], .entering,
        outside + levels.length + 1⟩
      (us ++ inner.tokens ++ [⟨.char ',', l⟩]) := by
  cases hu with
  | @call _ _ _ us' vs' ws' f _ l' hu' hc' has =>
    have hts : us' ++ vs' ++ (⟨.identifier f, lf⟩ :: ⟨.char '(', l'⟩ :: ws') ++ inner.tokens ++
        [⟨.char ',', l⟩] = us' ++ vs' ++ (⟨.identifier f, lf⟩ :: ⟨.char '(', l'⟩ ::
          (ws' ++ inner.tokens ++ [⟨.char ',', l⟩])) := by
      simp
    rw [hts]
    exact .entering (.call hu' hc' (has.cons hi))

/-- An expression in the innermost parenthesis is complete, and the token behind it either closes
the parenthesis or parts two arguments. -/
theorem Begun.close {levels : List Level} {c : Chain} {progress : Progress} {e : Node}
    {us vs : List Token} {p : Phrase .primary} (hu : LevelsSpelled R outside levels us)
    (ho : outside + levels.length < R.maxDepth)
    (hc : c.Spells R (R.maxDepth - (outside + levels.length + 1)) vs)
    (hp : p.Fits R (R.maxDepth - (outside + levels.length + 1))) (he : p.meaning R = e)
    (hop : takesOperator R ⟨.expression, levels, c, progress, outside + levels.length + 1⟩ t.lexeme =
      false)
    (h : readOn? R ⟨.expression, levels, c, progress, outside + levels.length + 1⟩ e t = some r') :
    Begun R outside r' (us ++ vs ++ p.tokens ++ [t]) := by
  obtain ⟨inner, hi, hit, him⟩ := hc.expression hp
  obtain ⟨lexeme, l⟩ := t
  rw [he] at him
  simp only [readOn?, hop, Bool.false_eq_true, if_false, ← him] at h
  have hts : us ++ vs ++ p.tokens = us ++ inner.tokens := by
    rw [hit, List.append_assoc]
  rw [hts]
  -- what the token may do depends on the innermost level
  cases levels with
  | nil => simp at h
  | cons level levels =>
    obtain ⟨outer, enclosure⟩ := level
    have ho' : outside + levels.length < R.maxDepth := by
      rw [List.length_cons] at ho
      omega
    have hd : R.maxDepth - (outside + (⟨outer, enclosure⟩ :: levels).length + 1) + 1 =
        R.maxDepth - (outside + levels.length + 1) := by
      rw [List.length_cons] at ho ⊢
      omega
    rw [hd] at hi
    cases enclosure with
    | group =>
      by_cases hcl : lexeme = .char ')'
      · subst hcl
        obtain rfl := Option.some.inj (by simpa [Token.isChar] using h)
        exact Begun.closeGroup hu ho' hi l
      · simp [Token.isChar, hcl] at h
    | call f lf as =>
      by_cases hcl : lexeme = .char ')'
      · subst hcl
        obtain rfl := Option.some.inj (by simpa [Token.isChar] using h)
        exact Begun.closeCall hu ho' hi l
      · by_cases hco : lexeme = .char ','
        · subst hco
          obtain rfl := Option.some.inj (by simpa [Token.isChar, push] using h)
          exact Begun.comma hu hi l
        · simp [Token.isChar, hcl, hco] at h

/-- A complete operand is behind the chain, and the token behind it is taken in. -/
theorem Begun.readOn {levels : List Level} {c : Chain} {progress : Progress} {e : Node}
    {us vs ws : List Token} (hu : LevelsSpelled R outside levels us)
    (ho : outside + levels.length < R.maxDepth)
    (hc : c.Spells R (R.maxDepth - (outside + levels.length + 1)) vs)
    (hw : progress.Spells R (R.maxDepth - (outside + levels.length + 1)) ws)
    (he : progress.operand? = some e)
    (h : readOn? R ⟨.expression, levels, c, progress, outside + levels.length + 1⟩ e t = some r') :
    Begun R outside r' (us ++ vs ++ ws ++ [t]) := by
  obtain ⟨p, hp, hm, rfl⟩ := hw.primary he
  have hl : leastPrecedence ⟨.expression, levels, c, progress, outside + levels.length + 1⟩ =
      some 0 := leastPrecedence_of_expression rfl
  by_cases hop : 0 < R.precedence t.lexeme
  · obtain ⟨lexeme, l⟩ := t
    obtain ⟨o, rfl⟩ := R.exists_char_of_precedence_pos hop
    rw [readOn?_operator hl hop] at h
    obtain rfl := Option.some.inj h
    have hts : us ++ vs ++ p.tokens ++ [⟨.char o, l⟩] =
        us ++ (vs ++ p.tokens ++ [⟨.char o, l⟩]) ++ [] := by
      simp
    rw [hts, ← hm]
    exact .inside hu ho (hc.cons hp hop) rfl
  · exact Begun.close hu ho hc hp hm (takesOperator_of_not_pos hl hop) h

/-- Each token that is taken in goes on with the beginning. -/
theorem Begun.read (hr : Begun R outside r ts) (h : r.read? R t = some r') :
    Begun R outside r' (ts ++ [t]) := by
  cases hr with
  | entering hu => exact Begun.enter hu h
  | @inside levels c progress us vs ws hu ho hc hw =>
    cases progress with
    | entering => exact hw.elim
    | operand =>
      obtain rfl := hw
      simpa using Begun.readOperand hu ho hc h
    | complete e => exact Begun.readOn hu ho hc hw rfl h
    | named x l =>
      by_cases hp : t.isChar '(' = true
      · obtain ⟨lexeme, l'⟩ := t
        obtain rfl : lexeme = .char '(' := by simpa [Token.isChar] using hp
        obtain rfl := Option.some.inj (by simpa [read?, Token.isChar] using h)
        obtain ⟨y, rfl, rfl⟩ := hw
        rw [List.append_assoc]
        exact .inside hu ho hc ⟨y, l', rfl, rfl⟩
      · rw [read?_of_operand rfl (by simpa using hp)] at h
        exact Begun.readOn hu ho hc hw rfl h
    | arguments f l =>
      obtain ⟨x, l', rfl, rfl⟩ := hw
      by_cases hp : t.isChar ')' = true
      · obtain ⟨lexeme, l''⟩ := t
        obtain rfl : lexeme = .char ')' := by simpa [Token.isChar] using hp
        obtain rfl := Option.some.inj (by simpa [read?, Token.isChar] using h)
        rw [List.append_assoc]
        exact .inside hu ho hc ⟨.emptyCall x l l' l'', by simp, rfl, rfl⟩
      · -- an argument is entered: the call becomes the innermost level
        simp only [read?, hp, Bool.false_eq_true, if_false, push] at h
        exact Begun.enter (.call hu hc .nil) h

theorem Begun.readAll {us : List Token} (hr : Begun R outside r ts)
    (h : r.readAll? R us = some r') : Begun R outside r' (ts ++ us) := by
  induction us generalizing r ts with
  | nil =>
    obtain rfl := Option.some.inj h
    simpa using hr
  | cons u us ih =>
    rw [readAll?_cons] at h
    obtain ⟨q, hq, h⟩ := Option.bind_eq_some_iff.1 h
    simpa using ih (hr.read hq) h

/-! ## The end of an expression -/

/-- When no parenthesis is open and an operand is complete, what has been taken in is an
expression. -/
theorem Begun.expression {e : Node} (hr : Begun R outside r ts) (hl : r.levels = [])
    (he : r.progress.operand? = some e) :
    ∃ p : Phrase .expression, p.Fits R (R.maxDepth - outside) ∧ p.tokens = ts ∧
      p.meaning R = r.chain.close e := by
  cases hr with
  | entering hu => simp [Progress.operand?] at he
  | @inside levels c progress us vs ws hu ho hc hw =>
    obtain rfl : levels = [] := hl
    obtain ⟨p, hp, rfl, rfl⟩ := hw.primary he
    obtain ⟨q, hq, ht, hm⟩ := hc.expression hp
    cases hu
    have hd : R.maxDepth - (outside + 0 + 1) + 1 = R.maxDepth - outside := by
      simp only [List.length_nil] at ho
      omega
    exact ⟨q, hd ▸ hq, by simpa using ht, hm⟩

/-- The count of open expressions is kept. -/
theorem Begun.leftOpen (hr : Begun R outside r ts) : r.leftOpen = outside := by
  cases hr with
  | entering hu => simp [Reader.leftOpen, openHere]
  | @inside levels c progress us vs ws hu ho hc hw =>
    cases progress with
    | entering => exact hw.elim
    | _ =>
      simp only [Reader.leftOpen, openHere]
      omega

end Reader

end Expression

end OperatorGrammar
