import OperatorGrammar.Proofs.Relocation
import OperatorGrammar.Proofs.Turn.Forms

/-!
The forms of inputs that are read alike, and of two inputs with a semicolon between them. Whatever
is left open in front of the semicolon is cut off there as it would be at the end of the input, and
what is behind the semicolon is read as if nothing had been in front of it. Main statements:
`Parser.forms_alike` and `Parser.forms_followedBy`.
-/

namespace OperatorGrammar

namespace FormResult

/-- The same result at other places and, if it is a failure, at related tokens. -/
structure Alike (T : Scanned → Scanned → Prop) (m : Location → Location) (r r' : FormResult) :
    Prop where
  kind : r'.kind = r.kind
  outcome : Agrees T (Node.relocate m) r.outcome r'.outcome

/-- The result of a form with a token behind the input instead of its end. -/
def cutOffBy (s : Scanned) (r : FormResult) : FormResult :=
  { r with outcome := r.outcome.mapError fun f =>
      if f.token.token.lexeme = .endOfInput then ⟨f.fault, s⟩ else f }

end FormResult

namespace Upcoming

/-- One input behind another, with a token between them. -/
def followedBy (u : Upcoming) (s : Scanned) (v : Upcoming) : Upcoming :=
  v.withTokens (u.tokens ++ s :: v.tokens)

variable {u v w : Upcoming} {us : List Scanned} {s : Scanned}

@[simp] theorem followedBy_tokens : (u.followedBy s v).tokens = u.tokens ++ s :: v.tokens := rfl

theorem Moves.followedBy (h : u.Moves us w) : (u.followedBy s v).Moves us (w.followedBy s v) :=
  ⟨by rw [followedBy_tokens, followedBy_tokens, h.tokens, List.append_assoc], rfl⟩

theorem head_followedBy (h : u.tokens ≠ []) : (u.followedBy s v).head = u.head := by
  obtain ⟨t, ts, ht⟩ := List.exists_cons_of_ne_nil h
  have ht' : (u.followedBy s v).tokens = t :: (ts ++ s :: v.tokens) := by
    rw [followedBy_tokens, ht, List.cons_append]
  rw [head_of_tokens ht, head_of_tokens ht']

theorem advance_followedBy (h : u.tokens ≠ []) :
    (u.followedBy s v).advance = u.advance.followedBy s v := by
  obtain ⟨t, ts, ht⟩ := List.exists_cons_of_ne_nil h
  simp [advance, followedBy, withTokens, ht]

/-- At the end of the first input the token between the two is the lookahead, and behind it comes
the second input. -/
theorem followedBy_of_nil (h : u.tokens = []) :
    (u.followedBy s v).head = s ∧ (u.followedBy s v).advance = v := by
  have ht : (u.followedBy s v).tokens = s :: v.tokens := by rw [followedBy_tokens, h]; rfl
  refine ⟨head_of_tokens ht, ?_⟩
  rw [advance, ht]
  rfl

/-- A semicolon behind an input shows a reading no more than the end does. -/
theorem alike_followedBy (hs : s.token.lexeme = .char ';') :
    Alike u.tokens (u.followedBy s v).tokens := by
  rw [followedBy_tokens]
  cases u.tokens with
  | nil => exact .semicolon _ hs
  | cons t ts => exact .token t ts _

end Upcoming

namespace Parser

variable {p q : Parser} {u v : Upcoming} {m : Location → Location} {s : Scanned}

/-! ## Inputs that are read alike -/

section Alike

variable {T : Scanned → Scanned → Prop}

theorem turn_alike (hT : p.rules.Pairs m T) (h : p.upcoming.Paired T u) :
    List.Forall₂ (FormResult.Alike T m) p.turn.1.toList
        { p with upcoming := u }.turn.1.toList ∧
      p.turn.2.upcoming.Paired T { p with upcoming := u }.turn.2.upcoming := by
  have hchar : u.head.token.isChar ';' = p.upcoming.head.token.isChar ';' :=
    (hT.lexeme h.head).isChar_eq ';'
  have hkind := (h.lexeme hT).kind_eq
  have hform := form_alike hT h (.ofLexeme u.lexeme)
  rw [hkind] at hform
  rcases p.turn_cases with ⟨hs, ht⟩ | ⟨hs, ⟨n, q, hf, ht⟩ | ⟨f, q, hf, ht⟩⟩
  · rw [ht, turn_of_semicolon (hchar.trans hs)]
    exact ⟨.nil, h.advance⟩
  all_goals
    rcases hf' : ({ p with upcoming := u } : Parser).form (.ofLexeme u.lexeme) with ⟨x, q'⟩
    rw [← hkind, hf', hkind, hf] at hform
    obtain ⟨hr, hrest⟩ := hform
    dsimp only at hr hrest
    cases hr
  · rw [ht, turn_of_ok (p := { p with upcoming := u }) (hchar.trans hs) hf']
    exact ⟨.cons ⟨hkind, .ok n⟩ .nil, hrest⟩
  · rename_i hfault htoken
    rw [ht, turn_of_error (p := { p with upcoming := u }) (hchar.trans hs) hf']
    exact ⟨.cons ⟨hkind, .error hfault htoken⟩ .nil, hrest.advance⟩

/-- Inputs that are read alike have the same forms, but for places. -/
theorem forms_alike (hT : p.rules.Pairs m T) (h : p.upcoming.Paired T u) :
    List.Forall₂ (FormResult.Alike T m) p.forms { p with upcoming := u }.forms := by
  induction p using forms.induct generalizing u with
  | case1 p hp =>
    have hu : u.tokens = [] := List.forall₂_nil_left_iff.1 (hp ▸ h.tokens)
    rw [forms_of_nil hp, forms_of_nil hu]
    exact .nil
  | case2 p hp ih =>
    have hu : u.tokens ≠ [] := by
      intro hu
      exact hp (List.forall₂_nil_right_iff.1 (hu ▸ h.tokens))
    obtain ⟨hr, hrest⟩ := turn_alike hT h
    have hk : { p.turn.2 with upcoming := ({ p with upcoming := u } : Parser).turn.2.upcoming } =
        ({ p with upcoming := u } : Parser).turn.2 := by
      rw [p.turn_keeps, turn_keeps { p with upcoming := u }]
    have hTturn : p.turn.2.rules.Pairs m T := by
      rw [p.turn_keeps]
      exact hT
    have hforms := ih hTturn hrest
    rw [hk] at hforms
    rw [forms_of_turn hp, forms_of_turn (p := { p with upcoming := u }) hu]
    exact List.rel_append hr hforms

end Alike

/-! ## A semicolon between two inputs -/

/-- A form is read with a semicolon and more behind the input as it is read without, but for a
failure at the end of the input, which shows at the semicolon. -/
theorem form_followedBy {kind : FormKind} {x : Except Failure Node}
    (hs : s.token.lexeme = .char ';') (hne : p.upcoming.tokens ≠ [])
    (hend : ∀ t ∈ p.upcoming.tokens, t.token.lexeme ≠ .endOfInput) (hf : p.form kind = (x, q)) :
    { p with upcoming := p.upcoming.followedBy s v }.form kind =
      (((⟨kind, x⟩ : FormResult).cutOffBy s).outcome,
        { p with upcoming := q.upcoming.followedBy s v }) := by
  obtain ⟨us, hm, hlocal⟩ := form_local hne kind
  rw [hf] at hm hlocal
  rw [hlocal _ _ hm.followedBy (Upcoming.alike_followedBy hs)]
  cases x with
  | ok n => rfl
  | error f =>
    have htoken := form_error (congrArg Prod.fst hf)
    rw [hf] at htoken
    change f.token = q.upcoming.head at htoken
    simp only [FormResult.cutOffBy, Except.mapError, failAt_error]
    -- the form has failed at the end of the input, or there is a token left that shows the fault
    have hl : f.token.token.lexeme = .endOfInput ↔ q.upcoming.tokens = [] := by
      rw [htoken]
      exact Upcoming.lexeme_eq_endOfInput_iff fun t ht => hend t (hm.mem ht)
    by_cases hq : q.upcoming.tokens = []
    · rw [if_pos (hl.2 hq), (Upcoming.followedBy_of_nil hq).1]
    · rw [if_neg (mt hl.1 hq), Upcoming.head_followedBy hq, ← htoken]

/-- A turn with a semicolon and more behind the input. If it fails at the end of the input, it skips
the semicolon. -/
theorem turn_followedBy (hs : s.token.lexeme = .char ';') (hne : p.upcoming.tokens ≠ [])
    (hend : ∀ t ∈ p.upcoming.tokens, t.token.lexeme ≠ .endOfInput) :
    ∃ u, { p with upcoming := p.upcoming.followedBy s v }.turn =
        (p.turn.1.map (FormResult.cutOffBy s), { p with upcoming := u }) ∧
      (u = p.turn.2.upcoming.followedBy s v ∨ p.turn.2.upcoming.tokens = [] ∧ u = v) := by
  have hhead := Upcoming.head_followedBy (s := s) (v := v) hne
  have hl : (p.upcoming.followedBy s v).lexeme = p.upcoming.lexeme := by
    rw [Upcoming.lexeme, Upcoming.lexeme, hhead]
  have hchar : (p.upcoming.followedBy s v).head.token.isChar ';' =
      p.upcoming.head.token.isChar ';' := by rw [hhead]
  rcases p.turn_cases with ⟨hsemi, ht⟩ | ⟨hsemi, ⟨n, q, hf, ht⟩ | ⟨f, q, hf, ht⟩⟩
  · rw [ht, turn_of_semicolon (hchar.trans hsemi)]
    exact ⟨_, rfl, .inl (Upcoming.advance_followedBy hne)⟩
  all_goals
    have hform := form_followedBy (v := v) hs hne hend hf
    rw [← hl] at hform
  · rw [ht, turn_of_ok (p := { p with upcoming := p.upcoming.followedBy s v })
      (hchar.trans hsemi) hform, hl]
    exact ⟨_, rfl, .inl rfl⟩
  · rw [ht, turn_of_error (p := { p with upcoming := p.upcoming.followedBy s v })
      (hchar.trans hsemi) hform, hl]
    refine ⟨_, rfl, ?_⟩
    by_cases hq : q.upcoming.tokens = []
    · refine .inr ⟨?_, (Upcoming.followedBy_of_nil hq).2⟩
      rw [next, Upcoming.advance_tokens, hq, List.tail_nil]
    · exact .inl (Upcoming.advance_followedBy hq)

/-- The forms of two inputs with a semicolon between them are those of the first, where the last
may be cut off, and those of the second. -/
theorem forms_followedBy (hs : s.token.lexeme = .char ';')
    (hend : ∀ t ∈ p.upcoming.tokens, t.token.lexeme ≠ .endOfInput) :
    { p with upcoming := p.upcoming.followedBy s v }.forms =
      p.forms.map (FormResult.cutOffBy s) ++ { p with upcoming := v }.forms := by
  have hjoined : ∀ u : Upcoming, (u.followedBy s v).tokens ≠ [] := by simp
  induction p using forms.induct with
  | case1 p hp =>
    obtain ⟨hhead, hadvance⟩ := Upcoming.followedBy_of_nil (s := s) (v := v) hp
    have hsemi : (p.upcoming.followedBy s v).head.token.isChar ';' = true := by
      simp [hhead, Token.isChar, hs]
    rw [forms_of_nil hp, forms_of_turn (p := { p with upcoming := p.upcoming.followedBy s v })
      (hjoined _), turn_of_semicolon hsemi, next, hadvance]
    rfl
  | case2 p hp ih =>
    obtain ⟨u, hturn, hu⟩ := turn_followedBy (v := v) hs hp hend
    rw [forms_of_turn (p := { p with upcoming := p.upcoming.followedBy s v }) (hjoined _), hturn,
      forms_of_turn hp, List.map_append, List.append_assoc]
    have hresult : (p.turn.1.map (FormResult.cutOffBy s)).toList =
        p.turn.1.toList.map (FormResult.cutOffBy s) := by
      cases p.turn.1 <;> rfl
    rw [hresult, List.append_cancel_left_eq]
    rcases hu with rfl | ⟨hnil, rfl⟩
    · obtain ⟨us, hm⟩ := p.turn_moves
      have hforms := ih fun t ht => hend t (hm.mem ht)
      have hk : ∀ w, ({ p.turn.2 with upcoming := w } : Parser) = { p with upcoming := w } := by
        intro w
        rw [p.turn_keeps]
      rwa [hk, hk] at hforms
    · rw [forms_of_nil hnil]
      rfl

end Parser

end OperatorGrammar
