import OperatorGrammar.CommandLine.Host
import OperatorGrammar.Input
import OperatorGrammar.Log
import OperatorGrammar.Node.Outline
import OperatorGrammar.Run

/-!
What the command writes and how it exits. The events of a run are written as they come: trees to
the output, prompts, log and errors to the error output. All but the log is written the host's way.
A tree that cannot be shown ends the writing, and so does an error that leaves the run; an input
that breaks off ends it at the first token that needs more of it.
-/

namespace OperatorGrammar.CommandLine

/-- Troubles that end the command. -/
inductive Trouble where
  | diagnostic (d : Diagnostic)
  | configuration (message : String)
  /-- Any other trouble that the library reports. -/
  | reported (message : String)
  /-- A file that is not there or may not be read. -/
  | file (message : String)
  | internal (message : String)

namespace Trouble

def text : Trouble → String
  | diagnostic d => d.text
  | configuration message => "Configuration error: " ++ message
  | reported message | file message => "Error: " ++ message
  | internal message => "Internal error: " ++ message

/-- One stands for errors in the input, two for arguments, settings and files, three for the
rest. -/
def exit : Trouble → Nat
  | diagnostic _ | reported _ => 1
  | configuration _ | file _ => 2
  | internal _ => 3

/-- Where a trouble that nobody has expected comes from. -/
def traceback (h : Host) : Trouble → String
  | internal message => h.traceback message
  | diagnostic _ | configuration _ | reported _ | file _ => ""

end Trouble

/-- What is written. -/
structure Transcript where
  out : String
  err : String
deriving DecidableEq, Repr

namespace Transcript

def empty : Transcript := ⟨"", ""⟩

/-- Writes a text to the output. -/
def addOut (h : Host) (t : Transcript) (text : String) : Transcript :=
  { t with out := t.out ++ h.echoOut text }

/-- Writes a text to the error output. -/
def addErr (h : Host) (t : Transcript) (text : String) : Transcript :=
  { t with err := t.err ++ h.echoErr text }

/-- Writes a line of the log. -/
def addLog (t : Transcript) (line : String) : Transcript := { t with err := t.err ++ line ++ "\n" }

end Transcript

/-- The end of a run of the command, with all that it has written. -/
structure Report where
  exit : Nat
  transcript : Transcript
deriving DecidableEq, Repr

/-- Ends with a trouble. If details are asked for, it is shown where the trouble comes from. -/
def Transcript.endWith (h : Host) (verbose : Bool) (t : Transcript) (trouble : Trouble) : Report :=
  let told := t.addErr h (trouble.text ++ "\n")
  ⟨trouble.exit, { told with err := told.err ++ if verbose then trouble.traceback h else "" }⟩

/-- What has been written so far, and the printer that writes the outlines. -/
structure Writer where
  transcript : Transcript
  printer : OutlinePrinter

def Writer.start : Writer := ⟨.empty, .start⟩

/-- Whatever keeps a tree from being shown is a trouble of its own. -/
def Trouble.ofRefusal (h : Host) (r : Refusal) : Trouble := .internal (r.message h.exhaustion)

def Trouble.ofFault (e : Text.Utf8.Error) : Trouble := .internal e.message

namespace Settings

variable (h : Host) (s : Settings)

def logLevel : LogLevel := if s.verbose then .debug else .warning

/-- The text of a tree. Outlines are written by a printer that may have been used before. -/
def render (printer : OutlinePrinter) (n : Node) : Except Refusal String × OutlinePrinter :=
  if s.tree then printer.printOn h.outlines n else (n.sexprOn h.forms, printer)

def writeRecord (t : Transcript) (r : LogRecord) : Transcript :=
  if r.isAtLeast s.logLevel then t.addLog r.line else t

/-- Writes what an event shows. A tree that cannot be shown ends the command. -/
def write (w : Writer) (e : Event) : Except Report Writer :=
  match e with
  | .prompted _ =>
    .ok (if s.interactive then { w with transcript := w.transcript.addErr h "ready> " } else w)
  | .yielded r =>
    match r.outcome with
    | .ok n =>
      match s.render h w.printer n with
      | (.ok text, printer) => .ok ⟨w.transcript.addOut h (text ++ "\n"), printer⟩
      | (.error r, _) => .error (w.transcript.endWith h s.verbose (.ofRefusal h r))
    | .error f => .ok { w with transcript := w.transcript.addErr h (f.diagnostic.text ++ "\n") }
  | e => .ok { w with transcript := (e.record?.map (s.writeRecord w.transcript)).getD w.transcript }

/-- What is written for a token that is listed. -/
def writeToken (t : Transcript) (token : Scanned) : Transcript :=
  let t := (token.record?.map (s.writeRecord t)).getD t
  t.addOut h (token.token.shown ++ "\n")

/-- The name of the input in messages. -/
def inputName : String :=
  match s.input with
  | none | some "-" => "<stdin>"
  | some name => name

end Settings

/-- Lists the tokens of an input. -/
def listTokens (h : Host) (s : Settings) (input : Input) : Report :=
  let tokens := (Upcoming.ofSource s.inputName (.ofList input.text)).toList
  match input.fault with
  | none => ⟨0, tokens.foldl (s.writeToken h) .empty⟩
  | some e =>
    let within := tokens.takeWhile (·.requests ≤ input.text.length)
    (within.foldl (s.writeToken h) .empty).endWith h s.verbose (.ofFault e)

/-- The session over an input. -/
def session (s : Settings) (input : Input) : Except ConfigurationError Session :=
  match Options.ofFlags s.entries s.noDefaults s.lenient s.maxDepth with
  | .error e => .error e
  | .ok options => Session.ofOptions options s.inputName (.ofList input.text)

/-- What events write, in order. -/
def Settings.writeAll (h : Host) (s : Settings) (events : List Event) : Except Report Writer :=
  events.foldlM (s.write h) .start

/-- What is written by the events that can happen when so many requests for a character are
answered, and whether these are all. -/
def Settings.writeWithin (h : Host) (s : Settings) (requests : Nat) (events : List Event) :
    Except Report (Writer × Bool) :=
  let within := events.takeWhile (Event.isWithin requests)
  (s.writeAll h within).map fun w => (w, within.length == events.length)

/-- Ends a run: one that an error has left with that, and any other, if it prompts, with an empty
line, and if there are errors with their number. -/
def close (h : Host) (s : Settings) (run : Run) (t : Transcript) : Report :=
  match run.left with
  | some r => t.endWith h s.verbose (.ofRefusal h r)
  | none =>
    let t := if s.interactive then t.addErr h "\n" else t
    let errors := run.last.collector
    if errors.hasErrors then ⟨1, t.addErr h (Collector.countText errors.count ++ "\n")⟩ else ⟨0, t⟩

/-- Reads the forms of an input. A fault in the input matters only if the run comes to it. -/
def readForms (h : Host) (s : Settings) (input : Input) : Report :=
  match session s input with
  | .error e => Transcript.empty.endWith h s.verbose (.configuration e.message)
  | .ok session =>
    let run := session.drainOn h.definitions
    match input.fault with
    | none =>
      match s.writeAll h run.events with
      | .error report => report
      | .ok w => close h s run w.transcript
    | some e =>
      match s.writeWithin h input.text.length run.events with
      | .error report => report
      | .ok (w, true) => close h s run w.transcript
      | .ok (w, false) => w.transcript.endWith h s.verbose (.ofFault e)

/-- Runs the command on an input. -/
def run (h : Host) (s : Settings) (input : Input) : Report :=
  if s.tokens then listTokens h s input else readForms h s input

def programName : String := "kparse"

def version : String := "1.0.0"

def versionText : String := programName ++ ", version " ++ version ++ "\n"

end OperatorGrammar.CommandLine
