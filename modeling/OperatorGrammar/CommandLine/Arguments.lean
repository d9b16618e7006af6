import OperatorGrammar.Options

/-!
The arguments of the command. Options and the input may stand in any order; two dashes end the
options. An option of one letter may stand together with others and with its value; a long option
takes its value behind an equals sign or from the next argument.
-/

namespace OperatorGrammar.CommandLine

/-- What the command is asked to do. -/
structure Settings where
  tokens : Bool
  tree : Bool
  /-- The operator entries, in order. -/
  entries : List String
  noDefaults : Bool
  lenient : Bool
  maxDepth : Int
  interactive : Bool
  verbose : Bool
  /-- The input; a dash, or none, stands for standard input. -/
  input : Option String
deriving Repr

/-- Arguments that the command does not understand. -/
inductive UsageError where
  | noSuchOption (name : String)
  | missingValue (name : String)
  | unneededValue (name : String)
  | badDepth (text : String)
  | extraArgument (text : String)
  /-- The input is no file that can be read. -/
  | unreadable (name : String)
deriving DecidableEq, Repr

namespace UsageError

def message : UsageError → String
  | noSuchOption name => "No such option: " ++ name
  | missingValue name => "Option " ++ Text.quoted name ++ " requires an argument."
  | unneededValue name => "Option " ++ Text.quoted name ++ " does not take a value."
  | badDepth text =>
    "Invalid value for '--max-depth': " ++ Text.quoted text ++ " is not an integer from 1 to " ++
      toString maxDepthLimit ++ "."
  | extraArgument text => "Got unexpected extra argument (" ++ text ++ ")"
  | unreadable name =>
    "Invalid value for '[INPUT_FILE]': " ++ Text.quoted name ++ " cannot be read."

/-- Whether the error is shown by itself, without the usage of the command in front. -/
def isBare : UsageError → Bool
  | missingValue _ | unneededValue _ => true
  | _ => false

def text (e : UsageError) : String := "Error: " ++ e.message ++ "\n"

end UsageError

/-- What the command is asked for. -/
inductive Request where
  | version
  | read (settings : Settings)

inductive Flag where
  | tokens | tree | noDefaults | lenientNumbers | interactive | verbose | version
deriving DecidableEq, Repr

inductive Parameter where
  | precedence | maxDepth
deriving DecidableEq, Repr

/-- What an option name stands for. -/
inductive Choice where
  | flag (f : Flag)
  | parameter (p : Parameter)
deriving DecidableEq, Repr

def longOptions : List (String × Choice) :=
  [("--tokens", .flag .tokens), ("--tree", .flag .tree), ("--precedence", .parameter .precedence),
    ("--no-defaults", .flag .noDefaults), ("--lenient-numbers", .flag .lenientNumbers),
    ("--max-depth", .parameter .maxDepth), ("--interactive", .flag .interactive),
    ("--verbose", .flag .verbose), ("--version", .flag .version)]

def shortOptions : List (Char × Choice) :=
  [('P', .parameter .precedence), ('i', .flag .interactive), ('v', .flag .verbose)]

/-- The arguments as they were given. -/
structure Given where
  flags : List Flag
  entries : List String
  /-- The last depth that was asked for. -/
  maxDepth : Option String
  /-- Arguments that belong to no option. -/
  inputs : List String

namespace Given

def empty : Given := ⟨[], [], none, []⟩

def raise (g : Given) (f : Flag) : Given := { g with flags := f :: g.flags }

def assign (g : Given) (value : String) : Parameter → Given
  | .precedence => { g with entries := g.entries ++ [value] }
  | .maxDepth => { g with maxDepth := some value }

def addInput (g : Given) (input : String) : Given := { g with inputs := g.inputs ++ [input] }

end Given

/-- How far the arguments have been read. -/
inductive Reading where
  | settled (g : Given)
  /-- The next argument is the value of an option. -/
  | awaiting (g : Given) (p : Parameter) (name : String)

namespace Reading

/-- Reads options of one letter that stand together. The first that takes a value has the rest of
the letters as its value, or the next argument if none are left. -/
def letters (g : Given) : List Char → Except UsageError Reading
  | [] => .ok (settled g)
  | c :: rest =>
    let name := String.ofList ['-', c]
    match shortOptions.lookup c with
    | none => .error (.noSuchOption name)
    | some (.flag f) => letters (g.raise f) rest
    | some (.parameter p) =>
      .ok (if rest = [] then awaiting g p name else settled (g.assign (String.ofList rest) p))

/-- The name of a long option and the value behind the first equals sign. -/
def splitValue (argument : List Char) : String × Option String :=
  (String.ofList (argument.takeWhile (· != '=')),
    if argument.contains '=' then
      some (String.ofList ((argument.dropWhile (· != '=')).drop 1))
    else none)

/-- Reads an argument that starts with a dash. -/
def option (g : Given) (argument : List Char) : Except UsageError Reading :=
  let (name, value) := splitValue argument
  match longOptions.lookup name, value with
  | some (.flag f), none => .ok (settled (g.raise f))
  | some (.flag _), some _ => .error (.unneededValue name)
  | some (.parameter p), some v => .ok (settled (g.assign v p))
  | some (.parameter p), none => .ok (awaiting g p name)
  | none, _ =>
    if ['-', '-'].isPrefixOf argument then .error (.noSuchOption name)
    else letters g (argument.drop 1)

def arguments (r : Reading) : List String → Except UsageError Given
  | [] =>
    match r with
    | settled g => .ok g
    | awaiting _ _ name => .error (.missingValue name)
  | a :: rest =>
    match r with
    | awaiting g p _ => arguments (settled (g.assign a p)) rest
    | settled g =>
      if a = "--" then .ok (rest.foldl Given.addInput g)
      else if ['-'].isPrefixOf a.toList && a != "-" then
        match option g a.toList with
        | .error e => .error e
        | .ok r => arguments r rest
      else arguments (settled (g.addInput a)) rest

end Reading

/-- The depth that was asked for. -/
def Given.depth (g : Given) : Except UsageError Int :=
  match g.maxDepth with
  | none => .ok Options.standardMaxDepth
  | some text =>
    match Text.integer? text.toList with
    | none => .error (.badDepth text)
    | some n => if (Options.depth? n).isOk then .ok n else .error (.badDepth text)

/-- What the arguments ask for, as far as it can be told without looking for the input. -/
def request (args : List String) : Except UsageError Request :=
  match Reading.arguments (.settled .empty) args with
  | .error e => .error e
  | .ok g =>
    if .version ∈ g.flags then .ok .version
    else
      match g.depth, g.inputs with
      | .error e, _ => .error e
      | .ok _, _ :: extra :: _ => .error (.extraArgument extra)
      | .ok depth, inputs =>
        .ok (.read {
          tokens := .tokens ∈ g.flags
          tree := .tree ∈ g.flags
          entries := g.entries
          noDefaults := .noDefaults ∈ g.flags
          lenient := .lenientNumbers ∈ g.flags
          maxDepth := depth
          interactive := .interactive ∈ g.flags
          verbose := .verbose ∈ g.flags
          input := inputs.head? })

end OperatorGrammar.CommandLine
