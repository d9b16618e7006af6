import OperatorGrammar.Node.Refusal

/-!
Trees as s-expressions on one line. Numbers are written compactly, parameters stand in a list of
their own, and the function around an expression at the top shows its body only. A tree that holds
a foreign value, or a numeral without a number, has no text, and one that is too deep for the stack
has none either; what is met first is the reason.
-/

namespace OperatorGrammar.Node

def parameterList (parameters : List String) : String :=
  "(" ++ " ".intercalate parameters ++ ")"

mutual

/-- The text of a tree that stands below nodes of the kinds `above`. -/
def sexprUnder (k : Stack) (above : List TreeKind) : Node → Except Refusal String
  | number v _ => do
    k.enter (.node .number :: above)
    v.numeral
  | reference name _ => do
    k.enter (.node .reference :: above)
    return name.plain
  | binary operator left right _ => do
    let path := .node .binary :: above
    k.enter path
    let l ← sexprUnder k path left
    let r ← sexprUnder k path right
    return "(" ++ operator ++ " " ++ l ++ " " ++ r ++ ")"
  | call callee arguments _ => do
    let path := .node .call :: above
    k.enter path
    let rest ← sexprAllUnder k path arguments
    return "(call " ++ callee.plain ++ rest ++ ")"
  | prototype p => do
    k.enter (.node .prototype :: above)
    return "(extern " ++ p.name ++ " " ++ parameterList p.parameters ++ ")"
  | function p body _ => do
    let path := .node .function :: above
    k.enter path
    -- the prototype is not written by itself, but it is asked whether it has a name
    k.enter (.node .prototype :: path)
    let b ← sexprUnder k path body
    return if p.isAnonymous then "(expr " ++ b ++ ")"
      else "(def " ++ p.name ++ " " ++ parameterList p.parameters ++ " " ++ b ++ ")"
  | foreign v => do
    k.enter (.foreign v.kind :: above)
    throw (.notANode v)

/-- The texts of arguments, a blank before each. -/
def sexprAllUnder (k : Stack) (above : List TreeKind) : List Node → Except Refusal String
  | [] => return ""
  | a :: as => do
    let t ← sexprUnder k above a
    let rest ← sexprAllUnder k above as
    return " " ++ t ++ rest

end

/-- The text of a tree on a stack. -/
def sexprOn (k : Stack) (n : Node) : Except Refusal String := n.sexprUnder k []

/-- The text of a tree, where there is always room. -/
def sexpr (n : Node) : Except Refusal String := n.sexprOn .unbounded

end OperatorGrammar.Node
