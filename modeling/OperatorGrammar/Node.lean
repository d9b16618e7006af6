import OperatorGrammar.Prototype
import OperatorGrammar.Value

/-!
Syntax trees. Parentheses leave no trace in them. A node holds the value that its token stands for:
a number in a numeral, and a text in a name. Where a node remembers its place, equality ignores it,
so that trees compare by shape. A value that is no node may stand where an expression belongs; the
functions that walk a tree refuse it.
-/

namespace OperatorGrammar

inductive Node where
  | number (value : Value) (location : Option Location)
  | reference (name : Value) (location : Option Location)
  | binary (operator : String) (left right : Node) (location : Option Location)
  | call (callee : Value) (arguments : List Node) (location : Option Location)
  | prototype (p : Prototype)
  | function (p : Prototype) (body : Node) (location : Option Location)
  /-- A value that is no node. -/
  | foreign (value : Value)
deriving Repr, Inhabited

/-- The six kinds of node. -/
inductive NodeClass where
  | number | reference | binary | call | prototype | function
deriving DecidableEq, Repr

namespace NodeClass

def name : NodeClass → String
  | number => "NumberLiteral"
  | reference => "VariableRef"
  | binary => "BinaryOp"
  | call => "Call"
  | prototype => "Prototype"
  | function => "Function"

/-- The node class that has a name, if there is one. -/
def ofName? (s : String) : Option NodeClass :=
  [number, reference, binary, call, prototype, function].find? (·.name == s)

/-- The field of a node that is asked for first where the node is shown. -/
def firstField : NodeClass → String
  | number => "value"
  | reference | prototype => "name"
  | binary => "operator"
  | call => "callee"
  | function => "prototype"

end NodeClass

/-- What may stand in a tree: the nodes of a class, or the foreign values of a kind. -/
inductive TreeKind where
  | node (c : NodeClass)
  | foreign (k : ValueKind)
deriving DecidableEq, Repr

namespace TreeKind

def name : TreeKind → String
  | node c => c.name
  | foreign k => k.name

end TreeKind

namespace Node

def kind : Node → TreeKind
  | number .. => .node .number
  | reference .. => .node .reference
  | binary .. => .node .binary
  | call .. => .node .call
  | prototype .. => .node .prototype
  | function .. => .node .function
  | foreign v => .foreign v.kind

/-- The nodes directly below a node, in source order. -/
def children : Node → List Node
  | binary _ left right _ => [left, right]
  | call _ arguments _ => arguments
  | function p body _ => [.prototype p, body]
  | number .. | reference .. | prototype .. | foreign _ => []

/-- The nodes directly below a node, or the value that is no node. -/
def children? : Node → Except Value (List Node)
  | foreign v => .error v
  | n => .ok n.children

/-- A call of a function, whose name has to say something. -/
def call? (callee : Value) (arguments : List Node) (location : Option Location) : Option Node :=
  if callee.isVoid then none else some (call callee arguments location)

mutual

/-- Equality of trees, places ignored. Numbers are compared as numbers. -/
def same : Node → Node → Bool
  | number x _, number y _ => x.same y
  | reference a _, reference b _ => a.same b
  | binary o l r _, binary p m s _ => o == p && same l m && same r s
  | call f as _, call g bs _ => f.same g && sameAll as bs
  | prototype p, prototype q => p.same q
  | function p b _, function q c _ => p.same q && same b c
  | foreign v, foreign w => v.same w
  | _, _ => false

def sameAll : List Node → List Node → Bool
  | [], [] => true
  | a :: as, b :: bs => same a b && sameAll as bs
  | _, _ => false

end

end Node

end OperatorGrammar
