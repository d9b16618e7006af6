import OperatorGrammar.Number.Decimal
import OperatorGrammar.Text.Quoted

/-!
Values: what a token stands for, and what a caller may hand in where an operator, a precedence or a
node belongs.
-/

namespace OperatorGrammar

inductive Value where
  | nothing
  | truth (holds : Bool)
  | integer (n : Int)
  | number (x : Binary64)
  | text (s : String)
  | list (items : List Value)
  /-- Values under names, each name once, in the order in which they were given. -/
  | record (fields : List (String × Value))
  /-- Any other object: the name of its class, how it is shown and which one it is. It has none of
  the attributes that it might be asked for. -/
  | object (className said : String) (identity : Nat)
deriving Repr, Inhabited

/-- The kinds of value. -/
inductive ValueKind where
  | nothing | truth | integer | number | text | list | record
  | object (className : String)
deriving DecidableEq, Repr

namespace ValueKind

/-- The name of a kind. -/
def name : ValueKind → String
  | nothing => "NoneType"
  | truth => "bool"
  | integer => "int"
  | number => "float"
  | text => "str"
  | list => "list"
  | record => "dict"
  | object className => className

end ValueKind

namespace Value

def kind : Value → ValueKind
  | nothing => .nothing
  | truth _ => .truth
  | integer _ => .integer
  | number _ => .number
  | text _ => .text
  | list _ => .list
  | record _ => .record
  | object className _ _ => .object className

mutual

/-- A value as it is shown in a message. -/
def shown : Value → String
  | nothing => "None"
  | truth true => "True"
  | truth false => "False"
  | integer n => toString n
  | number x => x.text
  | text s => Text.quoted s
  | list items => "[" ++ ", ".intercalate (shownAll items) ++ "]"
  | record fields => "\x7b" ++ ", ".intercalate (shownFields fields) ++ "\x7d"
  | object _ said _ => said

def shownAll : List Value → List String
  | [] => []
  | v :: vs => shown v :: shownAll vs

def shownFields : List (String × Value) → List String
  | [] => []
  | (key, v) :: fields => (Text.quoted key ++ ": " ++ shown v) :: shownFields fields

end

/-- A value as it stands in running text: a text stands for itself. -/
def plain : Value → String
  | text s => s
  | v => v.shown

/-- A value that says nothing: nothing itself, what does not hold, zero, and what is empty. -/
def isVoid : Value → Bool
  | nothing => true
  | truth holds => !holds
  | integer n => n == 0
  | number x => x.numEq .zero
  | text s => s == ""
  | list items => items.isEmpty
  | record fields => fields.isEmpty
  | object .. => false

/-- Whether entries can be filed under a value. -/
def isKey : Value → Bool
  | list _ | record _ => false
  | _ => true

/-- The whole number that a value counts as: a truth counts as one or zero. -/
def whole? : Value → Option Int
  | truth holds => some (if holds then 1 else 0)
  | integer n => some n
  | number (.signed negative m) =>
    if m.isWhole then some (if negative then -(m.whole : Int) else m.whole) else none
  | _ => none

mutual

/-- Equality of values. Values that count as the same whole number are equal, whatever their
kind; lists are equal item by item, and records name by name. An object is equal to itself only. -/
def same : Value → Value → Bool
  | nothing, nothing => true
  | number x, number y => x.numEq y
  | text s, text t => s == t
  | list as, list bs => sameAll as bs
  | record as, record bs => as.length == bs.length && sameFields as bs
  | object _ _ i, object _ _ j => i == j
  | v, w =>
    match v.whole?, w.whole? with
    | some m, some n => m == n
    | _, _ => false

def sameAll : List Value → List Value → Bool
  | [], [] => true
  | v :: vs, w :: ws => same v w && sameAll vs ws
  | _, _ => false

/-- Whether another record has these values under these names. -/
def sameFields : List (String × Value) → List (String × Value) → Bool
  | [], _ => true
  | (key, v) :: fields, others =>
    (match others.lookup key with
    | some w => same v w
    | none => false) && sameFields fields others

end

example : (record [("a", list [nothing, truth true])]).shown = "\x7b'a': [None, True]\x7d" := by
  decide +kernel

example : (truth true).same (integer 1) ∧ !(text "1").same (integer 1) := by decide +kernel

end Value

end OperatorGrammar
