import OperatorGrammar.Value
import OperatorGrammar.Text.Integer

/-!
The operator table. It gives operator characters their precedences, of which a higher one binds
tighter. The entries keep the order in which their characters were first mentioned. A frozen table
takes no more changes.
-/

namespace OperatorGrammar

/-- What is wrong with a configuration. -/
inductive ConfigurationError where
  | tableFrozen
  /-- The operator is not a text of one character. -/
  | notOneCharacter (operator : Value)
  /-- The operator is outside printable ASCII. -/
  | notPrintable (operator : Char)
  /-- The operator is a letter, a digit, a blank or a character that the grammar keeps. -/
  | notAnOperator (operator : Char)
  | precedenceNotInteger (operator : Char)
  /-- The entry has no equals sign, or nothing in front of the last one. -/
  | entryShape (entry : String)
  /-- What follows the last equals sign is no integer. -/
  | entryNumber (entry : String)
  | depthOutOfRange (depth : Int)
  /-- A value of this kind can be no key of a table. -/
  | notAKey (kind : ValueKind)
deriving Repr

/-- The greatest depth to which expressions may be allowed to nest. -/
def maxDepthLimit : Nat := 10000

namespace ConfigurationError

def message : ConfigurationError → String
  | tableFrozen => "precedence table is frozen"
  | notOneCharacter operator => "operator must be a single character, got " ++ operator.shown
  | notPrintable operator =>
    "operator must be printable ASCII, got " ++ Text.quoted operator.toString
  | notAnOperator operator => "'" ++ operator.toString ++ "' cannot be used as a binary operator"
  | precedenceNotInteger operator =>
    "precedence for '" ++ operator.toString ++ "' must be an integer"
  | entryShape entry => "expected OP=N, got " ++ Text.quoted entry
  | entryNumber entry => "precedence in " ++ Text.quoted entry ++ " is not an integer"
  | depthOutOfRange depth =>
    "max_depth must be between 1 and " ++ toString maxDepthLimit ++ ", got " ++ toString depth
  | notAKey kind => "unhashable type: '" ++ kind.name ++ "'"

end ConfigurationError

namespace PrecedenceTable

def isPrintableAscii (c : Char) : Bool := 0x20 ≤ c.toNat && c.toNat < 0x7F

/-- Characters that the grammar or the scanner keeps for itself. -/
def isReserved (c : Char) : Bool :=
  c == '(' || c == ')' || c == ',' || c == ';' || c == '.' || c == '#'

/-- Characters that the scanner or the grammar has another use for. -/
def isTaken (c : Char) : Bool := c.isAlphanum || c == ' ' || isReserved c

/-- Whether a character can be an operator. -/
def isUsable (c : Char) : Bool := isPrintableAscii c && !isTaken c

end PrecedenceTable

structure PrecedenceTable where
  /-- Operators with their precedences, in order of first mention. -/
  entries : List (Char × Int)
  frozen : Bool
  entries_usable : ∀ e ∈ entries, PrecedenceTable.isUsable e.1 = true
  /-- Each operator has one entry. -/
  entries_nodup : (entries.map Prod.fst).Nodup
deriving DecidableEq, Repr

namespace PrecedenceTable

def empty : PrecedenceTable := ⟨[], false, by simp, by simp⟩

/-- The table in use if none is given. -/
def standard : PrecedenceTable :=
  ⟨[('<', 10), ('+', 20), ('-', 30), ('*', 40)], false, by decide, by decide⟩

/-- The precedence of what is no operator. It is below every precedence that counts. -/
def noPrecedence : Int := -1

/-- The entry of an operator, whether it counts or not. -/
def get? (t : PrecedenceTable) (operator : Char) : Option Int := t.entries.lookup operator

/-- The precedence of an operator. Entries of zero or less do not count. -/
def precedence (t : PrecedenceTable) (operator : Char) : Int :=
  match t.get? operator with
  | some n => if 0 < n then n else noPrecedence
  | none => noPrecedence

/-- The character that a value names, if it names one. Only keys can be looked up. -/
def named? (v : Value) : Except ConfigurationError (Option Char) :=
  if v.isKey then
    match v with
    | .text s =>
      match s.toList with
      | [c] => .ok (some c)
      | _ => .ok none
    | _ => .ok none
  else .error (.notAKey v.kind)

/-- The entry of what a value names. -/
def getNamed? (t : PrecedenceTable) (v : Value) : Except ConfigurationError (Option Int) :=
  (named? v).map fun c => c.bind t.get?

/-- The precedence of what a value names. -/
def precedenceNamed (t : PrecedenceTable) (v : Value) : Except ConfigurationError Int :=
  (named? v).map fun c => (c.map t.precedence).getD noPrecedence

def isOperator (t : PrecedenceTable) (operator : Char) : Bool := 0 < t.precedence operator

/-- Replaces the entry of an operator where it stands, or puts a new one at the end. -/
def replaceOrAppend (operator : Char) (n : Int) : List (Char × Int) → List (Char × Int)
  | [] => [(operator, n)]
  | (c, m) :: rest =>
    if c = operator then (c, n) :: rest else (c, m) :: replaceOrAppend operator n rest

theorem mem_replaceOrAppend {operator : Char} {n : Int} {entries : List (Char × Int)}
    {e : Char × Int} (h : e ∈ replaceOrAppend operator n entries) :
    e = (operator, n) ∨ e ∈ entries := by
  induction entries with
  | nil => exact .inl (by simpa [replaceOrAppend] using h)
  | cons d rest ih =>
    obtain ⟨c, m⟩ := d
    simp only [replaceOrAppend] at h
    split at h
    · rename_i hc
      rcases List.mem_cons.1 h with rfl | h
      · exact .inl (by rw [hc])
      · exact .inr (List.mem_cons_of_mem _ h)
    · rcases List.mem_cons.1 h with rfl | h
      · exact .inr List.mem_cons_self
      · exact (ih h).imp_right (List.mem_cons_of_mem _)

theorem replaceOrAppend_nodup (operator : Char) (n : Int) {entries : List (Char × Int)}
    (h : (entries.map Prod.fst).Nodup) :
    ((replaceOrAppend operator n entries).map Prod.fst).Nodup := by
  induction entries with
  | nil => simp [replaceOrAppend]
  | cons d rest ih =>
    obtain ⟨c, m⟩ := d
    simp only [List.map_cons, List.nodup_cons] at h
    simp only [replaceOrAppend]
    split
    · simpa using h
    · rename_i hc
      simp only [List.map_cons, List.nodup_cons]
      refine ⟨fun hm => ?_, ih h.2⟩
      obtain ⟨e, he, hf⟩ := List.mem_map.1 hm
      rcases mem_replaceOrAppend he with rfl | he
      · exact hc hf.symm
      · exact h.1 (List.mem_map.2 ⟨e, he, hf⟩)

/-- A character that can be an operator. -/
abbrev Operator := { c : Char // isUsable c = true }

def insert (t : PrecedenceTable) (operator : Operator) (n : Int) : PrecedenceTable where
  entries := replaceOrAppend operator n t.entries
  frozen := t.frozen
  entries_usable e he := by
    rcases mem_replaceOrAppend he with rfl | he
    · exact operator.property
    · exact t.entries_usable e he
  entries_nodup := replaceOrAppend_nodup operator n t.entries_nodup

theorem lookup_replaceOrAppend (operator c : Char) (n : Int) (entries : List (Char × Int)) :
    (replaceOrAppend operator n entries).lookup c =
      if c = operator then some n else entries.lookup c := by
  induction entries with
  | nil =>
    by_cases h : c = operator
    · simp [replaceOrAppend, h]
    · simp [replaceOrAppend, List.lookup_cons, beq_false_of_ne h, h]
  | cons e rest ih =>
    obtain ⟨d, m⟩ := e
    by_cases hd : d = operator
    · subst hd
      by_cases h : c = d
      · simp [replaceOrAppend, h]
      · simp [replaceOrAppend, List.lookup_cons, beq_false_of_ne h, h]
    · rw [replaceOrAppend, if_neg hd]
      by_cases h : c = d
      · subst h
        simp [hd]
      · simp [List.lookup_cons, beq_false_of_ne h, ih]

/-- The last entry of an operator wins, and no other operator is touched. -/
theorem get?_insert (t : PrecedenceTable) (operator : Operator) (c : Char) (n : Int) :
    (t.insert operator n).get? c = if c = operator then some n else t.get? c :=
  lookup_replaceOrAppend operator c n t.entries

/-- Only a usable character has a precedence that counts. -/
theorem isUsable_of_precedence_pos {t : PrecedenceTable} {c : Char} (h : 0 < t.precedence c) :
    isUsable c = true := by
  unfold precedence get? at h
  split at h
  · rename_i n hn
    obtain ⟨e, he, hc⟩ : ∃ e ∈ t.entries, e.1 = c := by
      rw [List.lookup_eq_some_iff] at hn
      obtain ⟨before, after, hs, -⟩ := hn
      exact ⟨(c, n), by simp [hs], rfl⟩
    rw [← hc]
    exact t.entries_usable e he
  · exact absurd h (by decide)

def freeze (t : PrecedenceTable) : PrecedenceTable := { t with frozen := true }

/-- A copy takes changes again. -/
def copy (t : PrecedenceTable) : PrecedenceTable := { t with frozen := false }

/-- The operator character that a value gives, if it gives one. -/
def operator (value : Value) : Except ConfigurationError Operator :=
  match value with
  | .text s =>
    match s.toList with
    | [c] =>
      if hp : isPrintableAscii c then
        if ht : isTaken c then .error (.notAnOperator c)
        else .ok ⟨c, by simp [isUsable, hp, ht]⟩
      else .error (.notPrintable c)
    | _ => .error (.notOneCharacter value)
  | _ => .error (.notOneCharacter value)

/-- Adds or replaces an entry. The table has to be open, then the operator has to be one, then the
precedence has to be an integer; a truth does not count as one. -/
def set (t : PrecedenceTable) (op precedence : Value) : Except ConfigurationError PrecedenceTable :=
  if t.frozen then .error .tableFrozen
  else
    match operator op, precedence with
    | .error e, _ => .error e
    | .ok c, .integer n => .ok (t.insert c n)
    | .ok c, _ => .error (.precedenceNotInteger c)

/-- Makes entries into a map: of the same key the first place and the last value count. -/
def distinct (entries : List (Value × Value)) : List (Value × Value) :=
  let put (m : List (Value × Value)) (e : Value × Value) : List (Value × Value) :=
    if m.any (fun f => f.1.same e.1) then
      m.map fun f => if f.1.same e.1 then (f.1, e.2) else f
    else m ++ [e]
  entries.foldl put []

/-- Sets entries in order, starting with a given table. -/
def setAll (t : PrecedenceTable) (entries : List (Value × Value)) :
    Except ConfigurationError PrecedenceTable :=
  entries.foldlM (fun t e => t.set e.1 e.2) t

/-- The table of some entries. Before anything else all operators have to be keys. -/
def ofEntries (entries : List (Value × Value)) : Except ConfigurationError PrecedenceTable :=
  match entries.find? fun e => !e.1.isKey with
  | some e => .error (.notAKey e.1.kind)
  | none => empty.setAll (distinct entries)

/-- The table as it is shown in a listing. -/
def shown (t : PrecedenceTable) : String :=
  let entry (e : Char × Int) : String := Text.quoted e.1.toString ++ ": " ++ toString e.2
  "PrecedenceTable(\x7b" ++ ", ".intercalate (t.entries.map entry) ++ "\x7d)"

/-- Splits a text at the last occurrence of a character. -/
def splitAtLast (mark : Char) (text : List Char) : Option (List Char × List Char) :=
  match text.reverse.dropWhile (· != mark) with
  | [] => none
  | _ :: front => some (front.reverse, (text.reverse.takeWhile (· != mark)).reverse)

/-- Reads an entry such as `/=40`: the operator stands in front of the last equals sign, so that
the equals sign itself can be given a precedence. -/
def parseEntry (entry : String) : Except ConfigurationError (String × Int) :=
  match splitAtLast '=' entry.toList with
  | none | some ([], _) => .error (.entryShape entry)
  | some (op, number) =>
    match Text.integer? number with
    | none => .error (.entryNumber entry)
    | some n => .ok (String.ofList op, n)

/-- Reads an entry and sets it. -/
def setEntry (t : PrecedenceTable) (entry : String) :
    Except ConfigurationError ((String × Int) × PrecedenceTable) := do
  let parsed ← parseEntry entry
  let t ← t.set (.text parsed.1) (.integer parsed.2)
  return (parsed, t)

/-- Sets entries as they are written, in order, up to the first that is refused. -/
def setEntries (t : PrecedenceTable) (entries : List String) :
    Except ConfigurationError PrecedenceTable :=
  entries.foldlM (fun t e => (t.setEntry e).map Prod.snd) t

end PrecedenceTable

end OperatorGrammar
