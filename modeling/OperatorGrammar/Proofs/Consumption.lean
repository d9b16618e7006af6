import OperatorGrammar.Proofs.Grammar.Reading

/-!
What is consumed. Whatever is read takes tokens off the front of those to come, and a failure
leaves the token that shows it in front. Main statements: `Reader.runOn_ends`, `Parser.form_moves`
and `Parser.form_error`.
-/

namespace Except

variable {ε ε' α β : Type} {x : Except ε α}

theorem map_eq_ok_iff {f : α → β} {b : β} : x.map f = .ok b ↔ ∃ a, x = .ok a ∧ f a = b := by
  cases x <;> simp [Except.map]

theorem map_eq_error_iff {f : α → β} {e : ε} : x.map f = .error e ↔ x = .error e := by
  cases x <;> simp [Except.map]

theorem mapError_eq_ok_iff {f : ε → ε'} {a : α} : x.mapError f = .ok a ↔ x = .ok a := by
  cases x with
  | error e => constructor <;> intro h <;> cases h
  | ok b => exact ⟨fun h => congrArg _ (Except.ok.inj h), fun h => congrArg _ (Except.ok.inj h)⟩

theorem mapError_eq_error_iff {f : ε → ε'} {e : ε'} :
    x.mapError f = .error e ↔ ∃ d, x = .error d ∧ f d = e := by
  cases x with
  | error d =>
    refine ⟨fun h => ⟨d, rfl, Except.error.inj h⟩, ?_⟩
    rintro ⟨_, h, rfl⟩
    cases h
    rfl
  | ok b =>
    constructor
    · intro h
      cases h
    · rintro ⟨_, h, -⟩
      cases h

end Except

namespace OperatorGrammar

namespace Upcoming

/-- By moving on over `us` one comes from `u` to `v`. -/
structure Moves (u : Upcoming) (us : List Scanned) (v : Upcoming) : Prop where
  tokens : u.tokens = us ++ v.tokens
  last : v.last = u.last

variable {u v w : Upcoming} {us vs : List Scanned}

theorem Moves.refl (u : Upcoming) : u.Moves [] u := ⟨rfl, rfl⟩

theorem Moves.trans (h : u.Moves us v) (h' : v.Moves vs w) : u.Moves (us ++ vs) w :=
  ⟨by rw [h.tokens, h'.tokens, List.append_assoc], h'.last.trans h.last⟩

theorem Moves.unique (h : u.Moves us v) (h' : u.Moves vs v) : us = vs :=
  List.append_cancel_right (h.tokens.symm.trans h'.tokens)

theorem Moves.toList (h : u.Moves us v) : u.toList = us ++ v.toList := by
  simp [Upcoming.toList, h.tokens, h.last]

/-- What is to come later is to come. -/
theorem Moves.mem (h : u.Moves us v) {t : Scanned} (ht : t ∈ v.tokens) : t ∈ u.tokens := by
  rw [h.tokens]
  exact List.mem_append_right us ht

theorem moves_withTokens {rest : List Scanned} (h : u.tokens = us ++ rest) :
    u.Moves us (u.withTokens rest) := ⟨h, rfl⟩

theorem moves_advance (u : Upcoming) : u.Moves (u.tokens.take 1) u.advance :=
  ⟨by simp [← List.drop_one], rfl⟩

theorem head_of_tokens {t : Scanned} (h : u.tokens = t :: us) : u.head = t := by
  rw [head, h]

theorem lexeme_of_tokens {t : Scanned} (h : u.tokens = t :: us) : u.lexeme = t.token.lexeme := by
  rw [lexeme, head_of_tokens h]

/-- In front of anything but the end of the input, one moves on over the lookahead. -/
theorem moves_of_lexeme {l : Lexeme} (h : u.lexeme = l) (hl : l ≠ .endOfInput) :
    ∃ t, u.Moves [t] u.advance ∧ u.head = t ∧ t.token.lexeme = l := by
  have hm := u.moves_advance
  cases hu : u.tokens with
  | nil =>
    rw [lexeme, head, hu] at h
    exact absurd (h.symm.trans u.last_lexeme) hl
  | cons t ts =>
    rw [hu] at hm
    rw [lexeme_of_tokens hu] at h
    exact ⟨t, hm, head_of_tokens hu, h⟩

theorem Moves.eq_of_nil (h : u.Moves [] v) : v = u := by
  obtain ⟨tokens, last, hl⟩ := v
  obtain rfl : last = u.last := h.last
  obtain rfl : u.tokens = tokens := h.tokens
  rfl

end Upcoming

namespace Expression.Reader

/-- A reading takes in tokens until one is refused, and ends in front of that. -/
theorem runOn_ends (R : Rules) (last : Scanned) (r : Reader) (ts : List Scanned) :
    ∃ us r' t, ts = us ++ (r.runOn R last ts).rest ∧ t = (r.runOn R last ts).rest.headD last ∧
      r.readAll? R (us.map (·.token)) = some r' ∧ (r.runOn R last ts).opened = r'.leftOpen ∧
      (r.runOn R last ts).result = (r'.endBefore R t.token.lexeme).mapError (⟨·, t⟩) := by
  induction ts generalizing r with
  | nil => exact ⟨[], r, last, rfl, rfl, rfl, rfl, rfl⟩
  | cons t ts ih =>
    simp only [runOn]
    cases hr : r.read? R t.token with
    | some q =>
      obtain ⟨us, r', a, hu, ha, hq, ho, he⟩ := ih q
      refine ⟨t :: us, r', a, congrArg (t :: ·) hu, ha, ?_, ho, he⟩
      rw [List.map_cons, readAll?_cons, hr]
      exact hq
    | none => exact ⟨[], r, t, rfl, rfl, rfl, rfl, rfl⟩

/-- A reading that fails does so at the token in front of which it stops. -/
theorem runOn_spec (R : Rules) (last : Scanned) (r : Reader) (ts : List Scanned) :
    (∃ us, ts = us ++ (r.runOn R last ts).rest) ∧
      ∀ f, (r.runOn R last ts).result = .error f →
        f.token = (r.runOn R last ts).rest.headD last := by
  obtain ⟨us, r', t, hu, ht, -, -, he⟩ := runOn_ends R last r ts
  refine ⟨⟨us, hu⟩, ?_⟩
  intro f hf
  rw [he] at hf
  obtain ⟨fault, -, rfl⟩ := Except.mapError_eq_error_iff.1 hf
  exact ht

end Expression.Reader

namespace Prototype

theorem readParameters_spec (read : List String) (ts : List Scanned) :
    (∃ us, ts = us ++ (readParameters read ts).2) ∧
      ∀ f, (readParameters read ts).1 = .error f →
        ∃ rest, (readParameters read ts).2 = f.token :: rest := by
  induction ts generalizing read with
  | nil => exact ⟨⟨[], rfl⟩, fun f hf => by simp [readParameters] at hf⟩
  | cons t ts ih =>
    simp only [readParameters]
    split
    · rename_i x _
      split
      · exact ⟨⟨[], rfl⟩, fun f hf => by
          obtain rfl := Except.error.inj hf
          exact ⟨ts, rfl⟩⟩
      · obtain ⟨⟨us, hu⟩, hf⟩ := ih (x :: read)
        exact ⟨⟨t :: us, congrArg (t :: ·) hu⟩, hf⟩
    · exact ⟨⟨[], rfl⟩, fun f hf => by simp at hf⟩

theorem missing_spec {α : Type} {u v : Upcoming} {us : List Scanned} (expected : Expected)
    (h : u.Moves us v) :
    (∃ us, u.Moves us (missing (α := α) expected v).2) ∧
      ∀ f, (missing (α := α) expected v).1 = .error f →
        f.token = (missing (α := α) expected v).2.head :=
  ⟨⟨us, h⟩, fun f hf => by
    obtain rfl := Except.error.inj hf
    rfl⟩

theorem read_spec (u : Upcoming) :
    (∃ us, u.Moves us (read u).2) ∧ ∀ f, (read u).1 = .error f → f.token = (read u).2.head := by
  unfold read
  split
  · simp only
    have h1 := u.moves_advance
    split
    · have h2 := h1.trans u.advance.moves_advance
      obtain ⟨⟨us, hu⟩, hf⟩ := readParameters_spec [] u.advance.advance.tokens
      split
      · rename_i f left hr
        rw [hr] at hu hf
        have h3 := h2.trans (Upcoming.moves_withTokens hu)
        refine ⟨⟨_, h3⟩, ?_⟩
        intro g hg
        obtain rfl := Except.error.inj hg
        obtain ⟨rest, rfl⟩ := hf f rfl
        rfl
      · rename_i parameters left hr
        rw [hr] at hu
        have h3 := h2.trans (Upcoming.moves_withTokens hu)
        split
        · exact ⟨⟨_, h3.trans (Upcoming.moves_advance _)⟩, fun f hf => by simp at hf⟩
        · exact missing_spec _ h3
    · exact missing_spec _ h1
  · exact missing_spec _ (.refl u)

end Prototype

namespace Parser

theorem run_spec (p : Parser) (r : Expression.Reader) :
    (∃ us, p.upcoming.Moves us (p.run r).2.upcoming) ∧
      ∀ f, (p.run r).1 = .error f → f.token = (p.run r).2.upcoming.head := by
  obtain ⟨⟨us, hu⟩, hf⟩ := r.runOn_spec p.rules p.upcoming.last p.upcoming.tokens
  refine ⟨⟨us, Upcoming.moves_withTokens hu⟩, ?_⟩
  intro f h
  rw [hf f h]
  simp only [run, Expression.Reader.run, Upcoming.head, Upcoming.withTokens_tokens,
    Upcoming.withTokens_last]
  cases (r.runOn p.rules p.upcoming.last p.upcoming.tokens).rest <;> rfl

theorem prototype_spec (p : Parser) :
    (∃ us, p.upcoming.Moves us p.next.prototype.2.upcoming) ∧
      ∀ f, p.next.prototype.1 = .error f → f.token = p.next.prototype.2.upcoming.head := by
  obtain ⟨⟨us, hu⟩, hf⟩ := Prototype.read_spec p.next.upcoming
  exact ⟨⟨_, p.upcoming.moves_advance.trans hu⟩, hf⟩

/-- A definition is a prototype and, if that can be read, an expression behind it. -/
theorem definition_of_error {p q : Parser} {f : Failure} (h : p.next.prototype = (.error f, q)) :
    p.definition = (.error f, q) := by
  simp only [definition, h]

theorem definition_of_ok {p q : Parser} {proto : Prototype}
    (h : p.next.prototype = (.ok proto, q)) :
    p.definition = (q.expression.1.map fun b =>
      .function proto b (some p.upcoming.head.token.location), q.expression.2) := by
  simp only [definition, h]

/-- A form takes tokens off the front. -/
theorem form_moves (p : Parser) (kind : FormKind) :
    ∃ us, p.upcoming.Moves us (p.form kind).2.upcoming := by
  have hp := p.prototype_spec.1
  cases kind with
  | definition =>
    show ∃ us, p.upcoming.Moves us p.definition.2.upcoming
    rcases hq : p.next.prototype with ⟨f | proto, q⟩
    · rw [definition_of_error hq]
      simpa only [hq] using hp
    · rw [definition_of_ok hq]
      obtain ⟨us, hu⟩ := hp
      obtain ⟨vs, hv⟩ := (q.run_spec (.expression q.opened)).1
      exact ⟨us ++ vs, .trans (by simpa only [hq] using hu) hv⟩
  | external => exact hp
  | expression => exact (p.run_spec (.expression p.opened)).1

/-- A form that fails leaves the token that shows the fault in front. -/
theorem form_error {p : Parser} {kind : FormKind} {f : Failure}
    (h : (p.form kind).1 = .error f) : f.token = (p.form kind).2.upcoming.head := by
  have hp := p.prototype_spec.2
  cases kind with
  | definition =>
    change p.definition.1 = .error f at h
    show f.token = p.definition.2.upcoming.head
    rcases hq : p.next.prototype with ⟨g | proto, q⟩
    · rw [definition_of_error hq] at h ⊢
      obtain rfl := Except.error.inj h
      rw [hq] at hp
      exact hp g rfl
    · rw [definition_of_ok hq] at h ⊢
      exact (q.run_spec (.expression q.opened)).2 f (Except.map_eq_error_iff.1 h)
  | external => exact hp f (Except.map_eq_error_iff.1 h)
  | expression =>
    exact (p.run_spec (.expression p.opened)).2 f (Except.map_eq_error_iff.1 h)

end Parser

end OperatorGrammar
