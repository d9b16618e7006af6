import OperatorGrammar.Proofs.Mention
import OperatorGrammar.Proofs.Program

/-!
The trees of a run, read back. Each tree that a run hands out mentions the tokens of its turn, and
at the places of these the text has their characters. Main statement: `Session.start_readsBack`.
-/

namespace OperatorGrammar

/-- The tokens of a turn that does not fail are among those to come, in the same order. -/
theorem Upcoming.Moves.sublist {u v w : Upcoming} {us span : List Scanned} (h : u.Moves us v)
    (h' : v.Moves span w) : span.Sublist u.tokens := by
  rw [h.tokens, h'.tokens]
  exact (List.sublist_append_left span w.tokens).trans (List.sublist_append_right us _)

/-- The tokens of a turn with a tree are those of a form, which has the tree, and are among those to
come, in the same order. -/
theorem Walk.exists_form {p q : Parser} {τs : List Turn} (h : Walk p τs q) (ho : p.opened = 0)
    {τ : Turn} (hτ : τ ∈ τs) {kind : FormKind} {n : Node} (hr : τ.result = some ⟨kind, .ok n⟩) :
    ∃ F : Form, F.Fits τ.before.rules ∧ F.result? τ.before.rules = some ⟨kind, .ok n⟩ ∧
      τ.span.map (·.token) = F.tokens ∧ τ.span.Sublist p.upcoming.tokens := by
  obtain ⟨⟨us, hm⟩, -, hopened⟩ := h.exists_moves τ hτ
  have hf : τ.failure? = none := by
    rw [Turn.failure?, hr]
    rfl
  obtain ⟨F, hF, hres, hspan, htokens⟩ := (h.sound τ hτ).exists_form (hopened.trans ho) hf
  exact ⟨F, hF, hres.trans hr, htokens, hm.sublist hspan⟩

namespace Session

/-- The trees of a run mention what the run has consumed. -/
structure ReadsBack (s : Session) (text : List Char) : Prop where
  consumed : Event.scans s.drain.1 =
    s.turns.flatMap Turn.span ++ [s.drain.2.parser.upcoming.head]
  results : Event.results s.drain.1 = s.turns.filterMap Turn.result
  /-- Each tree has been read from the tokens of its turn. -/
  trees : ∀ τ ∈ s.turns, ∀ kind n, τ.result = some ⟨kind, .ok n⟩ →
    n.IsReadFrom kind (τ.span.map (·.token))
  /-- The text has the characters of these tokens at their places. -/
  places : ∀ τ ∈ s.turns, ∀ kind n, τ.result = some ⟨kind, .ok n⟩ →
    ∀ t ∈ τ.span, t.token.StandsIn text

/-- Every tree of every run can be read back, whatever the rules, the greatest number of errors and
the answers of the source are. -/
theorem start_readsBack (R : Rules) (maxErrors : Int) (file : String)
    (answers : List (Option Char)) (remembersEnd : Bool) :
    (start R maxErrors file (.ofAnswers answers remembersEnd)).ReadsBack
      (Source.ofAnswers answers remembersEnd).text := by
  have ho := Upcoming.ofAnswers_ordered file answers remembersEnd
  have hin := Upcoming.ofAnswers_inOrder file answers remembersEnd
  have hstand : ∀ t ∈ (Upcoming.ofSource file (.ofAnswers answers remembersEnd)).tokens,
      t.token.StandsIn (Source.ofAnswers answers remembersEnd).text :=
    fun _ => Upcoming.mem_standsIn
  generalize Source.ofAnswers answers remembersEnd = source at ho hin hstand ⊢
  have hw := primed_walks R maxErrors ho
  have ht : (start R maxErrors file source).turns = _ := start_turns
  constructor
  case consumed => exact start_scans ho
  case results => exact start_results ho
  case trees =>
    rw [ht]
    intro τ hτ kind n hr
    obtain ⟨F, hF, hres, htokens, hsub⟩ := hw.walk.exists_form rfl hτ hr
    rw [htokens]
    apply Form.isReadFrom hF hres
    · intro t hmem
      rw [← htokens] at hmem
      obtain ⟨a, ha, rfl⟩ := List.mem_map.1 hmem
      exact (hstand a (hsub.subset ha)).nonempty
    · rw [← htokens, List.pairwise_map]
      exact hin.sublist hsub
  case places =>
    rw [ht]
    intro τ hτ kind n hr t hmem
    obtain ⟨F, -, -, -, hsub⟩ := hw.walk.exists_form rfl hτ hr
    exact hstand t (hsub.subset hmem)

end Session

end OperatorGrammar
