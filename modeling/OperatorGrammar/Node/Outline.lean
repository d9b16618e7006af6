import OperatorGrammar.Node.Refusal

/-!
Trees as indented outlines, one line for each node. A printer keeps the lines it has written and
how far it is indented. When it cannot go on it stops where it is and stays indented; the next
outline starts afresh. What it does at a node goes by the name of the node's class, so that it takes
a foreign value whose class has the name of a node class for a node, and asks it for its fields.
-/

namespace OperatorGrammar

structure OutlinePrinter where
  /-- The lines written so far, the latest first. -/
  written : List String
  indent : Nat
deriving DecidableEq, Repr

namespace OutlinePrinter

def start : OutlinePrinter := ⟨[], 0⟩

def emit (p : OutlinePrinter) (text : String) : OutlinePrinter :=
  { p with written := (String.ofList (List.replicate (2 * p.indent) ' ') ++ text) :: p.written }

def deeper (p : OutlinePrinter) : OutlinePrinter := { p with indent := p.indent + 1 }

def shallower (p : OutlinePrinter) : OutlinePrinter := { p with indent := p.indent - 1 }

def lines (p : OutlinePrinter) : List String := p.written.reverse

def text (p : OutlinePrinter) : String := "\n".intercalate p.lines

end OutlinePrinter

/-- What a printer does. If it is refused, what it has done before stays done. -/
abbrev Printing := ExceptT Refusal (StateM OutlinePrinter)

namespace Printing

def emit (text : String) : Printing Unit := modify (·.emit text)

/-- Does something a step deeper. Where that is refused, the printer stays there. -/
def nested (inner : Printing Unit) : Printing Unit := do
  modify OutlinePrinter.deeper
  inner
  modify OutlinePrinter.shallower

end Printing

namespace Node

open Printing

def outlinePrototype (p : Prototype) : String :=
  "Prototype " ++ (if p.isAnonymous then "<anonymous>" else p.name) ++ "(" ++
    ", ".intercalate p.parameters ++ ")"

/-- Why a printer does not go on when it comes to a value that is no node. -/
def foreignRefusal (v : Value) : Refusal :=
  match NodeClass.ofName? v.kind.name with
  | none => .notANode v
  | some c => .lacks v c.firstField

mutual

/-- Writes a tree that stands below nodes of the kinds `above`. -/
def outlineUnder (k : Stack) (above : List TreeKind) : Node → Printing Unit
  | number v _ => do
    k.enter (.node .number :: above)
    emit ("Number " ++ (← v.numeral))
  | reference name _ => do
    k.enter (.node .reference :: above)
    emit ("Variable " ++ name.plain)
  | binary operator left right _ => do
    let path := .node .binary :: above
    k.enter path
    emit ("BinaryOp '" ++ operator ++ "'")
    nested do
      outlineUnder k path left
      outlineUnder k path right
  | call callee arguments _ => do
    let path := .node .call :: above
    k.enter path
    emit ("Call " ++ callee.plain ++ " (" ++ toString arguments.length ++ " args)")
    nested (outlineAllUnder k path arguments)
  | prototype p => do
    k.enter (.node .prototype :: above)
    emit (outlinePrototype p)
  | function p body _ => do
    let path := .node .function :: above
    k.enter path
    emit "Function"
    nested do
      k.enter (.node .prototype :: path)
      emit (outlinePrototype p)
      outlineUnder k path body
  | foreign v => do
    k.enter (.foreign v.kind :: above)
    -- only the line of a function is written before it is asked for anything
    if v.kind.name = NodeClass.function.name then emit "Function"
    throw (foreignRefusal v)

def outlineAllUnder (k : Stack) (above : List TreeKind) : List Node → Printing Unit
  | [] => return
  | a :: as => do
    outlineUnder k above a
    outlineAllUnder k above as

end

end Node

namespace OutlinePrinter

/-- Forgets what has been written, and how far the printer was indented when it stopped. -/
def reset (p : OutlinePrinter) : OutlinePrinter := { p with written := [], indent := 0 }

/-- Writes the outline of a tree on a stack. The printer may have been used before. -/
def printOn (k : Stack) (p : OutlinePrinter) (n : Node) :
    Except Refusal String × OutlinePrinter :=
  let (done, out) := (n.outlineUnder k []).run p.reset
  (done.map fun _ => out.text, out)

/-- Writes the outline of a tree, where there is always room. -/
def print (p : OutlinePrinter) (n : Node) : Except Refusal String × OutlinePrinter :=
  p.printOn .unbounded n

end OutlinePrinter

namespace Node

/-- The outline of a tree, where there is always room. -/
def outline (n : Node) : Except Refusal String := (OutlinePrinter.start.print n).1

end Node

end OperatorGrammar
