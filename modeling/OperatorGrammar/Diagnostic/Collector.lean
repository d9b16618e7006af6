import OperatorGrammar.Diagnostic

/-!
Diagnostics that are collected for a common report, and the number at which to stop.
-/

namespace OperatorGrammar

structure Collector where
  /-- The diagnostics in the order in which they came. -/
  diagnostics : List Diagnostic
  maxErrors : Int
deriving Repr

namespace Collector

/-- The number of diagnostics at which to stop, unless another one is given. -/
def standardMaxErrors : Int := 100

def empty (maxErrors : Int) : Collector := ⟨[], maxErrors⟩

def add (c : Collector) (d : Diagnostic) : Collector :=
  { c with diagnostics := c.diagnostics ++ [d] }

def clear (c : Collector) : Collector := { c with diagnostics := [] }

def count (c : Collector) : Nat := c.diagnostics.length

def hasErrors (c : Collector) : Bool := !c.diagnostics.isEmpty

def shouldStop (c : Collector) : Bool := c.maxErrors ≤ c.count

/-- A number of errors in words. -/
def countText (n : Nat) : String := toString n ++ (if n = 1 then " error" else " errors")

/-- The texts of all diagnostics, an empty line after each, and their number. -/
def report (c : Collector) : String :=
  "\n".intercalate (c.diagnostics.flatMap (fun d => [d.text, ""]) ++ [countText c.count])

/-- The report as one diagnostic, if there is anything to report. -/
def combined? (c : Collector) : Option Diagnostic :=
  if c.hasErrors then some ⟨.report c.report none, none, none⟩ else none

end Collector

end OperatorGrammar
