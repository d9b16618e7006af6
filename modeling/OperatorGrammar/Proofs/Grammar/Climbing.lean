import OperatorGrammar.Node.SExpression
import OperatorGrammar.Proofs.Grammar.Descent
import OperatorGrammar.Proofs.Grammar.Grouping

/-!
The tree of a chain by divide and conquer. The chain is split at the last of its operators that
bind least, and both sides are treated alike. That tree is what a reader builds that goes through
the chain once, from left to right, however the precedences are related. Main statements:
`Parser.chainRest_climbs`, and `Parser.chainRest_of_neg` for a chain in which every token counts as
an operator.
-/

namespace OperatorGrammar

namespace Expression.Chain

/-! ## The reference tree -/

variable {first : Node} {d : Joint × Node} {before behind rest : List (Joint × Node)}

/-- The last of the operators that bind least, with the operand behind it, and what is in front of
it and behind it. -/
def splitLoosest? : List (Joint × Node) →
    Option (List (Joint × Node) × (Joint × Node) × List (Joint × Node))
  | [] => none
  | d :: rest =>
    match splitLoosest? rest with
    | none => some ([], d, rest)
    | some (before, loosest, behind) =>
      if loosest.1.precedence ≤ d.1.precedence then some (d :: before, loosest, behind)
      else some ([], d, rest)

theorem splitLoosest?_eq_none : splitLoosest? rest = none ↔ rest = [] := by
  cases rest with
  | nil => simp [splitLoosest?]
  | cons d rest =>
    rw [splitLoosest?]
    split
    · simp
    · split <;> simp

/-- What a split means: no operator binds looser, and those behind it bind tighter. -/
theorem splitLoosest?_eq_some (h : splitLoosest? rest = some (before, d, behind)) :
    rest = before ++ d :: behind ∧ (∀ b ∈ before, d.1.precedence ≤ b.1.precedence) ∧
      ∀ b ∈ behind, d.1.precedence < b.1.precedence := by
  induction rest generalizing before d behind with
  | nil => cases h
  | cons a rest ih =>
    rw [splitLoosest?] at h
    split at h
    case h_1 hnone =>
      cases h
      simp [splitLoosest?_eq_none.1 hnone]
    case h_2 before' loosest behind' hsplit =>
      obtain ⟨rfl, hbefore, hbehind⟩ := ih hsplit
      split at h
      case isTrue hle =>
        cases h
        refine ⟨rfl, ?_, hbehind⟩
        intro b hb
        rcases List.mem_cons.1 hb with rfl | hb
        · exact hle
        · exact hbefore b hb
      case isFalse hlt =>
        -- the first operator binds looser than the loosest behind it
        rw [Int.not_le] at hlt
        cases h
        refine ⟨rfl, nofun, ?_⟩
        intro b hb
        rcases List.mem_append.1 hb with hb | hb
        · exact Int.lt_of_lt_of_le hlt (hbefore b hb)
        · rcases List.mem_cons.1 hb with rfl | hb
          · exact hlt
          · exact Int.lt_trans hlt (hbehind b hb)

/-- The tree of a chain: the last of the operators that bind least is its root. -/
def tree (first : Node) (rest : List (Joint × Node)) : Node :=
  match _h : splitLoosest? rest with
  | none => first
  | some (before, (j, second), behind) => join (tree first before) j (tree second behind)
termination_by rest.length
decreasing_by
  all_goals
    rw [(splitLoosest?_eq_some _h).1, List.length_append, List.length_cons]
    omega

theorem groups_tree (first : Node) (rest : List (Joint × Node)) :
    Groups first rest (tree first rest) := by
  induction first, rest using tree.induct with
  | case1 first rest h =>
    obtain rfl := splitLoosest?_eq_none.1 h
    rw [tree]
    exact .operand first
  | case2 first rest before j second behind h ihbefore ihbehind =>
    obtain ⟨hrest, hbefore, hbehind⟩ := splitLoosest?_eq_some h
    rw [tree, h, hrest]
    exact .join ihbefore ihbehind hbefore hbehind

/-- Going through a chain from left to right builds its tree. -/
theorem climb_eq_tree (first : Node) (rest : List (Joint × Node)) :
    climb [] first rest = tree first rest :=
  climb_of_groups (groups_tree first rest)

end Expression.Chain

namespace Parser

open Expression Reader

/-! ## Chains among the tokens -/

variable {p q : Parser} {goal : Goal} {least : Int} {chain : Chain} {first n : Node}
  {rest : List (Joint × Node)}

/-- The tokens to come are operators with at least a precedence, each with an operand behind it, and
then something that binds looser, in front of which `q` is. -/
inductive Linked (least : Int) : Parser → List (Joint × Node) → Parser → Prop where
  | nil {p : Parser} : p.precedence < least → Linked least p [] p
  | cons {p r q : Parser} {c : Char} {l : Location} {e : Node} {rest : List (Joint × Node)} :
    p.upcoming.head.token = ⟨.char c, l⟩ → least ≤ p.rules.table.precedence c →
      p.next.operand = (.ok e, r) → Linked least r rest q →
      Linked least p ((⟨c.toString, p.rules.table.precedence c, l⟩, e) :: rest) q

/-- What is behind a complete operand is read as far as it is linked to it, and put behind the chain
in front of that operand. -/
theorem chainOn_of_linked (hg : goal.least? = some least) (h : p.Linked least rest q)
    (chain : Chain) (e : Node) :
    p.chainOn goal chain e =
      (.ok (Chain.climb [] (chain.inOrder e).1 ((chain.inOrder e).2 ++ rest)),
        { q with opened := leftOpen ⟨goal, [], [], .complete e, q.opened⟩ }) := by
  induction h generalizing chain e with
  | nil hlt => rw [chainOn_of_looser hg hlt, List.append_nil]; rfl
  | @cons p r q c l d rest ht hle hd _ ih =>
    have hp : p.precedence = p.rules.table.precedence c := by
      rw [precedence, Upcoming.lexeme, ht]
      rfl
    have hj : p.joint = ⟨c.toString, p.rules.table.precedence c, l⟩ := by
      rw [joint, hp, Upcoming.lexeme, ht]
      rfl
    rw [chainOn_of_operator hg (hp ▸ hle), operandOn_of_ok hd, ih, hj, Chain.inOrder_cons,
      List.append_assoc]
    rfl

/-- An operand has at least one token. -/
theorem operand_length_lt (h : p.operand = (.ok n, q)) :
    q.upcoming.tokens.length < p.upcoming.tokens.length := by
  obtain ⟨hn, rfl⟩ := Prod.mk.inj h
  obtain ⟨R, ⟨ts, last, hlast⟩, primed, opened⟩ := p
  cases ts with
  | nil => cases hn
  | cons t ts =>
    simp only [Reader.run, runOn] at hn
    show ((Reader.operand opened).runOn R last (t :: ts)).rest.length < _
    rw [runOn]
    split
    · exact Nat.lt_succ_of_le (runOn_length_le ..)
    · rename_i hr
      rw [hr] at hn
      cases hn

/-- A chain that is read is one of the kind. -/
theorem exists_linked (hg : goal.least? = some least) (hl : 0 ≤ least)
    (h : p.chainOn goal chain first = (.ok n, q)) : ∃ rest r, p.Linked least rest r := by
  induction hk : p.upcoming.tokens.length using Nat.strongRecOn generalizing p chain first with
  | ind k ih =>
    by_cases hlt : p.precedence < least
    · exact ⟨[], p, .nil hlt⟩
    rw [Int.not_lt] at hlt
    have hpos : 0 < p.rules.precedence p.upcoming.lexeme :=
      (Rules.precedence_nonneg_iff p.rules _).1 (Int.le_trans hl hlt)
    obtain ⟨c, hc⟩ := p.rules.exists_char_of_precedence_pos hpos
    have hp : p.precedence = p.rules.table.precedence c := by
      rw [precedence, hc]
      rfl
    rw [chainOn_of_operator hg hlt] at h
    rcases hd : p.next.operand with ⟨f | d, r⟩
    · have he := operandOn_of_error goal ((first, p.joint) :: chain) (congrArg Prod.fst hd)
      rw [h] at he
      cases he
    · rw [operandOn_of_ok hd] at h
      have hshort : r.upcoming.tokens.length < k :=
        hk ▸ Nat.lt_of_lt_of_le (operand_length_lt hd) p.upcoming.advance_length_le
      obtain ⟨rest, r', hlinked⟩ := ih _ hshort h rfl
      exact ⟨_, r', .cons (l := p.upcoming.head.token.location) (by rw [← hc]; rfl) (hp ▸ hlt) hd
        hlinked⟩

/-- If even what is no operator binds tightly enough, then the end of the input does, and no operand
is behind it. -/
theorem chainOn_of_neg (hg : goal.least? = some least) (hl : least < 0) (chain : Chain) (e : Node)
    (p : Parser) : ∃ f, (p.chainOn goal chain e).1 = .error f := by
  induction hk : p.upcoming.tokens.length using Nat.strongRecOn generalizing p chain e with
  | ind k ih =>
    have hle : least ≤ p.precedence := by
      rcases p.rules.precedence_pos_or p.upcoming.lexeme with h | h <;>
        simp only [precedence, h, PrecedenceTable.noPrecedence] <;> omega
    rw [chainOn_of_operator hg hle]
    rcases hd : p.next.operand with ⟨f | d, r⟩
    · exact ⟨f, operandOn_of_error goal ((e, p.joint) :: chain) (congrArg Prod.fst hd)⟩
    · rw [operandOn_of_ok hd]
      have hshort := Nat.lt_of_lt_of_le (operand_length_lt hd) p.upcoming.advance_length_le
      exact ih _ (hk ▸ hshort) _ _ _ rfl

/-- So in no tree there is an operator that is none. -/
theorem chainRest_of_neg (hl : least < 0) (e : Node) (p : Parser) :
    ∃ f, (p.chainRest least e).1 = .error f :=
  chainOn_of_neg (show (Goal.rest least).least? = some least from rfl) hl [] e p

/-- The rest of a chain is read up to the first token that binds too loosely, to the tree of the
chain, and an expression is an operand with the rest of a chain. -/
theorem chainRest_climbs :
    (∀ (least : Int) (first : Node) (p q : Parser) (rest : List (Joint × Node)),
      p.Linked least rest q → p.chainRest least first = (.ok (Chain.tree first rest), q)) ∧
    ∀ (p q : Parser) (n : Node), p.expression = (.ok n, q) →
      ∃ first r rest r', { p with opened := p.opened + 1 }.operand = (.ok first, r) ∧
        r.Linked 0 rest r' ∧ n = Chain.tree first rest ∧ q = { r' with opened := p.opened } := by
  constructor
  · intro least first p q rest h
    rw [← Chain.climb_eq_tree]
    exact chainOn_of_linked (show (Goal.rest least).least? = some least from rfl) h [] first
  · intro p q n h
    obtain ⟨e, -, hf, -⟩ := expression_of_ok h
    have hopen : p.opened < p.rules.maxDepth := by
      rw [← Nat.sub_pos_iff_lt]
      exact Nat.pos_of_ne_zero fun hz => e.not_fits_zero (hz ▸ hf)
    have hopened : q.opened = p.opened := by
      have hkeeps := congrArg opened p.expression_keeps
      rw [h] at hkeeps
      exact hkeeps
    rw [expression_eq_operandOn hopen] at h
    rcases hd : { p with opened := p.opened + 1 }.operand with ⟨f | first, r⟩
    · have he := operandOn_of_error .expression [] (congrArg Prod.fst hd)
      rw [h] at he
      cases he
    · rw [operandOn_of_ok hd] at h
      obtain ⟨rest, r', hlinked⟩ := exists_linked rfl (Int.le_refl 0) h
      rw [chainOn_of_linked rfl hlinked] at h
      obtain ⟨hn, rfl⟩ := Prod.mk.inj h
      refine ⟨first, r, rest, r', hd, hlinked, ?_, ?_⟩
      · rw [← Chain.climb_eq_tree]
        exact (Except.ok.inj hn).symm
      · rw [← hopened]

/-- Behind `a`, the tokens `+ b * c + d` are linked, and the root of the tree is the last plus. -/
theorem chainRest_of_three_operators :
    ∃ (p q : Parser) (rest : List (Joint × Node)), p.rules.table = .standard ∧
      p.upcoming.toList.map (·.token.lexeme) = [.char '+', .identifier "b", .char '*',
        .identifier "c", .char '+', .identifier "d", .endOfInput] ∧
      p.Linked 20 rest q ∧ q.upcoming.lexeme = .endOfInput ∧
      p.chainRest 20 (.reference (.text "a") none) =
        (.ok (Chain.tree (.reference (.text "a") none) rest), q) ∧
      (Chain.tree (.reference (.text "a") none) rest).sexpr = .ok "(+ (+ a (* b c)) d)" := by
  let l : Location := ⟨"", 1, 1⟩
  let scanned (x : Lexeme) : Scanned := ⟨⟨x, l⟩, .start, 0⟩
  let before (xs : List Lexeme) : Parser :=
    ⟨⟨.standard, 8, true⟩, ⟨xs.map scanned, scanned .endOfInput, rfl⟩, true, 1⟩
  let operand (joint : Joint) (x : String) : Joint × Node :=
    (joint, .reference (.text x) (some l))
  have h : (before [.char '+', .identifier "b", .char '*', .identifier "c", .char '+',
      .identifier "d"]).Linked 20
      [operand ⟨"+", 20, l⟩ "b", operand ⟨"*", 40, l⟩ "c", operand ⟨"+", 20, l⟩ "d"]
      (before []) := by
    refine .cons (c := '+') rfl (by decide) rfl ?_
    refine .cons (c := '*') rfl (by decide) rfl ?_
    refine .cons (c := '+') rfl (by decide) rfl ?_
    exact .nil (by decide)
  refine ⟨_, _, _, rfl, rfl, h, rfl, chainRest_climbs.1 20 _ _ _ _ h, ?_⟩
  rw [← Chain.climb_eq_tree]
  rfl

end Parser

end OperatorGrammar
