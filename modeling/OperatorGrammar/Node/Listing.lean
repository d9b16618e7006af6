import OperatorGrammar.Node

/-!
Two complete views of a tree: as a term, which names every part but the places, and as a list of
its nodes in preorder, each with its depth and place.
-/

namespace OperatorGrammar.Node

/-- A tuple of texts; a single one is followed by a comma. -/
def tuple : List String → String
  | [] => "()"
  | [a] => "(" ++ a ++ ",)"
  | as => "(" ++ ", ".intercalate as ++ ")"

def prototypeTerm (p : Prototype) : String :=
  "Prototype(name=" ++ Text.quoted p.name ++ ", parameters=" ++
    tuple (p.parameters.map Text.quoted) ++ ")"

mutual

/-- A tree as a term. -/
def term : Node → String
  | number v _ => "NumberLiteral(value=" ++ v.shown ++ ")"
  | reference name _ => "VariableRef(name=" ++ name.shown ++ ")"
  | binary operator left right _ =>
    "BinaryOp(operator=" ++ Text.quoted operator ++ ", left=" ++ term left ++ ", right=" ++
      term right ++ ")"
  | call callee arguments _ =>
    "Call(callee=" ++ callee.shown ++ ", args=" ++ tuple (terms arguments) ++ ")"
  | prototype p => prototypeTerm p
  | function p body _ => "Function(prototype=" ++ prototypeTerm p ++ ", body=" ++ term body ++ ")"
  | foreign v => v.shown

def terms : List Node → List String
  | [] => []
  | a :: as => term a :: terms as

end

/-- One node of a listing: how deep it stands, its kind, what it says and its place. -/
structure ListingEntry where
  depth : Nat
  kind : NodeClass
  payload : Value
  location : Option Location
deriving Repr

def prototypeEntry (depth : Nat) (p : Prototype) : ListingEntry :=
  ⟨depth, .prototype, .text (" ".intercalate (p.name :: p.parameters)), p.location⟩

mutual

/-- The nodes of a tree in preorder, put in front of a list. -/
def listOnto (rest : List ListingEntry) (depth : Nat) : Node → List ListingEntry
  | number v l => ⟨depth, .number, .text v.shown, l⟩ :: rest
  | reference name l => ⟨depth, .reference, name, l⟩ :: rest
  | binary operator left right l =>
    ⟨depth, .binary, .text operator, l⟩ :: listOnto (listOnto rest (depth + 1) right) (depth + 1) left
  | call callee arguments l => ⟨depth, .call, callee, l⟩ :: listAllOnto rest (depth + 1) arguments
  | prototype p => prototypeEntry depth p :: rest
  | function p body l =>
    ⟨depth, .function, .text (if p.isAnonymous then "anonymous" else "named"), l⟩ ::
      prototypeEntry (depth + 1) p :: listOnto rest (depth + 1) body
  | foreign _ => rest

def listAllOnto (rest : List ListingEntry) (depth : Nat) : List Node → List ListingEntry
  | [] => rest
  | a :: as => listOnto (listAllOnto rest depth as) depth a

end

/-- The nodes of a tree in preorder. -/
def listing (n : Node) : List ListingEntry := listOnto [] 0 n

mutual

/-- The first foreign value of a tree in preorder. -/
def foreign? : Node → Option Value
  | number .. | reference .. | prototype _ => none
  | binary _ left right _ => (foreign? left).or (foreign? right)
  | call _ arguments _ => foreignAmong? arguments
  | function _ body _ => foreign? body
  | foreign v => some v

def foreignAmong? : List Node → Option Value
  | [] => none
  | a :: as => (foreign? a).or (foreignAmong? as)

end

end OperatorGrammar.Node
