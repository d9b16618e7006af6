import OperatorGrammar.Diagnostic.Collector
import OperatorGrammar.Rules

/-!
What a user can set: the operator table, how deep expressions may nest, whether numbers are
strict, and after how many errors to stop.
-/

namespace OperatorGrammar

structure Options where
  table : PrecedenceTable
  maxDepth : Int
  strictNumbers : Bool
  maxErrors : Int
deriving Repr

namespace Options

def standardMaxDepth : Int := 256

def standard : Options := ⟨.standard, standardMaxDepth, true, Collector.standardMaxErrors⟩

/-- The options that a user's flags describe. The entries are set in order into the standard
table, or into an empty one. -/
def ofFlags (entries : List String) (noDefaults lenient : Bool) (maxDepth : Int) :
    Except ConfigurationError Options :=
  let table : PrecedenceTable := if noDefaults then .empty else .standard
  (table.setEntries entries).map fun table =>
    ⟨table, maxDepth, !lenient, Collector.standardMaxErrors⟩

/-- A depth that may be asked for. -/
def depth? (maxDepth : Int) : Except ConfigurationError Nat :=
  if 1 ≤ maxDepth ∧ maxDepth ≤ maxDepthLimit then .ok maxDepth.toNat
  else .error (.depthOutOfRange maxDepth)

/-- The rules that the options set. -/
def rules (o : Options) : Except ConfigurationError Rules :=
  (depth? o.maxDepth).map fun depth => ⟨o.table, depth, o.strictNumbers⟩

/-- Options whose depth may be asked for set what they say. -/
theorem rules_of_ok {o : Options} {R : Rules} (h : o.rules = .ok R) :
    1 ≤ o.maxDepth ∧ R = ⟨o.table, o.maxDepth.toNat, o.strictNumbers⟩ := by
  unfold rules depth? at h
  split at h
  · rename_i hd
    exact ⟨hd.1, (Except.ok.inj h).symm⟩
  · cases h

theorem maxDepth_pos {o : Options} {R : Rules} (h : o.rules = .ok R) : 0 < R.maxDepth := by
  obtain ⟨hd, rfl⟩ := rules_of_ok h
  show 0 < o.maxDepth.toNat
  omega

end Options

end OperatorGrammar
