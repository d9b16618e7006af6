import OperatorGrammar.Proofs.Grammar

/-!
Which tree a chain stands for. The operator at the root is the last of those that bind least: those
in front of it bind as tightly at least, and those behind it bind tighter. Main statement:
`Chain.climb_of_groups`, going through a chain from left to right builds that tree.
-/

namespace OperatorGrammar.Expression.Chain

/-- An operand and the rest of a chain group to a tree. -/
inductive Groups : Node → List (Joint × Node) → Node → Prop where
  | operand (e : Node) : Groups e [] e
  | join {first second left right : Node} {before behind : List (Joint × Node)} {j : Joint} :
    Groups first before left → Groups second behind right →
      (∀ d ∈ before, j.precedence ≤ d.1.precedence) →
      (∀ d ∈ behind, j.precedence < d.1.precedence) →
      Groups first (before ++ (j, second) :: behind) (join left j right)

/-- Operators that bind tighter than the latest that waits leave it waiting. -/
def Waits (pending : Chain) (rest : List (Joint × Node)) : Prop :=
  ∀ w ∈ pending.head?, ∀ d ∈ rest, w.2.precedence < d.1.precedence

theorem joinTighter_of_waits {pending : Chain} {j : Joint} {second : Node}
    (h : pending.Waits [(j, second)]) (left : Node) :
    joinTighter j.precedence left pending = (left, pending) := by
  cases pending with
  | nil => rfl
  | cons w pending =>
    have hlt : w.2.precedence < j.precedence := h w rfl (j, second) List.mem_cons_self
    rw [joinTighter, if_neg (Int.not_le.2 hlt)]

/-- When what comes next binds no tighter than an operator, that operator is joined at once or
later, to the same end. -/
theorem climb_join {pending : Chain} {left right : Node} {j : Joint} {more : List (Joint × Node)}
    (h : ∀ d ∈ more.head?, d.1.precedence ≤ j.precedence) :
    climb ((left, j) :: pending) right more = climb pending (join left j right) more := by
  cases more with
  | nil => rfl
  | cons d more =>
    obtain ⟨k, next⟩ := d
    have hle : k.precedence ≤ j.precedence := h (k, next) rfl
    have hj : joinTighter k.precedence right ((left, j) :: pending) =
        joinTighter k.precedence (join left j right) pending := by
      rw [joinTighter, if_pos hle]
    rw [climb, climb, hj]

/-- What groups to a tree may be replaced by that tree, if the operators around it do not bind into
it. -/
theorem climb_append_of_groups {first n : Node} {rest : List (Joint × Node)}
    (h : Groups first rest n) (pending : Chain) (more : List (Joint × Node))
    (hw : pending.Waits rest) (hm : ∀ d ∈ rest, ∀ m ∈ more.head?, m.1.precedence ≤ d.1.precedence) :
    climb pending first (rest ++ more) = climb pending n more := by
  induction h generalizing pending more with
  | operand e => rfl
  | @join first second left right before behind j _ _ hbefore hbehind ihleft ihright =>
    have hroot : (j, second) ∈ before ++ (j, second) :: behind := by simp
    have hwait : pending.Waits [(j, second)] := by
      intro w hw' d hd
      obtain rfl := List.mem_singleton.1 hd
      exact hw w hw' _ hroot
    rw [List.append_assoc, List.cons_append]
    -- up to the root on the left, the root onto what waits, the right side, and the join
    calc climb pending first (before ++ (j, second) :: (behind ++ more))
        = climb pending left ((j, second) :: (behind ++ more)) := by
          refine ihleft pending _ (fun w hw' d hd => hw w hw' d (List.mem_append_left _ hd)) ?_
          intro d hd m hm'
          obtain rfl := Option.some.inj hm'
          exact hbefore d hd
      _ = climb ((left, j) :: pending) second (behind ++ more) := by
          rw [climb, joinTighter_of_waits hwait]
      _ = climb ((left, j) :: pending) right more := by
          refine ihright _ more (fun w hw' d hd => ?_) ?_
          · obtain rfl := Option.some.inj hw'
            exact hbehind d hd
          · intro d hd
            exact hm d (by simp [hd])
      _ = climb pending (join left j right) more := climb_join (hm _ hroot)

theorem climb_of_groups {first n : Node} {rest : List (Joint × Node)} (h : Groups first rest n) :
    climb [] first rest = n := by
  have hc := climb_append_of_groups h [] [] (fun w hw => nomatch hw) (fun d _ m hm => nomatch hm)
  rwa [List.append_nil] at hc

end OperatorGrammar.Expression.Chain
