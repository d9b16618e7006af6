import OperatorGrammar.CommandLine.Report
import OperatorGrammar.Proofs.Outline
import OperatorGrammar.Proofs.Turn.Left
import OperatorGrammar.Proofs.Turn.Prompts

/-!
What the command reports. It writes the results of the run of a session: the trees, each on a line
of its own unless it is asked for outlines, and the diagnostics, as the host writes them, with their
number at the end. Only a stack without room for a tree keeps it from going on, and what has come
before that is written. Main statement: `CommandLine.run_reports`.
-/

namespace OperatorGrammar

/-! ## Texts of trees -/

namespace SExpression

/-- An s-expression is plain if all its characters are. -/
def IsPlain (e : SExpression) : Prop :=
  ∀ c ∈ e.chars, PrecedenceTable.isPrintableAscii c = true

theorem isPlain_word {x : String} (h : OperatorGrammar.IsPlain x) : (word x.toList).IsPlain := by
  rw [IsPlain, chars]
  exact h

theorem isPlain_list {items : List SExpression} (h : ∀ e ∈ items, e.IsPlain) :
    (list items).IsPlain := by
  have hspaced : ∀ c ∈ spaced items, PrecedenceTable.isPrintableAscii c = true := by
    induction items with
    | nil => exact List.forall_mem_nil _
    | cons e es ih =>
      obtain ⟨he, hes⟩ := List.forall_mem_cons.1 h
      rw [spaced]
      exact List.forall_mem_cons.2 ⟨by decide, List.forall_mem_append.2 ⟨he, ih hes⟩⟩
  rw [IsPlain, chars]
  refine List.forall_mem_cons.2
    ⟨by decide, List.forall_mem_append.2 ⟨?_, List.forall_mem_singleton.2 (by decide)⟩⟩
  exact fun c hc => hspaced c (List.mem_of_mem_drop hc)

end SExpression

namespace Node

variable {R : Rules} {xs : List Lexeme} {depth : Nat}

theorem isPlain_nameList {names : List String} (h : ∀ x ∈ names, IsName x) :
    (nameList names).IsPlain :=
  SExpression.isPlain_list
    (List.forall_mem_map.2 fun x hx => SExpression.isPlain_word (isPlain_name (h x hx)))

theorem IsExpression.isPlain {n : Node} (h : n.IsExpression R xs depth) :
    n.sExpression.IsPlain := by
  induction h with
  | @number depth text l _ _ =>
    obtain ⟨m, hm⟩ := Literal.exists_value_eq text
    rw [sExpression, hm]
    exact SExpression.isPlain_word (isPlain_compactText m)
  | reference hx => exact SExpression.isPlain_word (isPlain_name hx)
  | @binary depth c left right l hc _ _ ihl ihr =>
    have hop := isPlain_operator (PrecedenceTable.isUsable_of_precedence_pos hc)
    exact SExpression.isPlain_list (List.forall_mem_cons.2 ⟨SExpression.isPlain_word hop,
      List.forall_mem_cons.2 ⟨ihl, List.forall_mem_singleton.2 ihr⟩⟩)
  | @emptyCall depth f l hf =>
    exact SExpression.isPlain_list (List.forall_mem_cons.2 ⟨SExpression.isPlain_word (by decide),
      List.forall_mem_singleton.2 (SExpression.isPlain_word (isPlain_name hf))⟩)
  | @call depth f as l hf _ _ ih =>
    exact SExpression.isPlain_list (List.forall_mem_cons.2 ⟨SExpression.isPlain_word (by decide),
      List.forall_mem_cons.2 ⟨SExpression.isPlain_word (isPlain_name hf),
        forall_mem_sExpressionAll ih⟩⟩)

end Node

namespace FormKind

open Node

variable {R : Rules} {xs : List Lexeme} {kind : FormKind} {n : Node}

/-- The s-expression of a form's tree is on one line. -/
theorem Gives.isPlain (h : kind.Gives R xs n) : n.sExpression.IsPlain := by
  have hword {x : String} (hx : IsPlain x) := SExpression.isPlain_word hx
  cases h with
  | @definition p body l hp hb =>
    rw [sExpression_definition hp]
    exact SExpression.isPlain_list (List.forall_mem_cons.2 ⟨hword (by decide),
      List.forall_mem_cons.2 ⟨hword (isPlain_name hp.name),
        List.forall_mem_cons.2 ⟨isPlain_nameList hp.parameters,
          List.forall_mem_singleton.2 hb.isPlain⟩⟩⟩)
  | @external p hp =>
    exact SExpression.isPlain_list (List.forall_mem_cons.2 ⟨hword (by decide),
      List.forall_mem_cons.2 ⟨hword (isPlain_name hp.name),
        List.forall_mem_singleton.2 (isPlain_nameList hp.parameters)⟩⟩)
  | @expression l m body hb =>
    rw [sExpression_expression]
    exact SExpression.isPlain_list (List.forall_mem_cons.2 ⟨hword (by decide),
      List.forall_mem_singleton.2 hb.isPlain⟩)

end FormKind

/-! ## What a run comes to -/

namespace Event

/-- The trees of the forms that events hand out. -/
def trees (events : List Event) : List Node :=
  (results events).filterMap fun r => r.outcome.toOption

/-- The failures of the forms that events hand out. -/
def failures (events : List Event) : List Failure :=
  (results events).filterMap FormResult.failure?

end Event

namespace Session

end Session

namespace CommandLine

variable {h : Host} {s : Settings}

/-! ## Trees -/

namespace Settings

/-- The stack on which trees are shown. -/
def stack (h : Host) (s : Settings) : Stack := if s.tree then h.outlines else h.forms

/-- The text of a tree by itself. -/
def rendering (h : Host) (s : Settings) (n : Node) : Except Refusal String :=
  if s.tree then (OutlinePrinter.start.printOn h.outlines n).1 else n.sexprOn h.forms

/-- A text that can be written as it is, and unless it is an outline on one line. -/
def IsLine (s : Settings) (t : String) : Prop :=
  Text.escape ∉ t.toList ∧ (s.tree = false → '\n' ∉ t.toList)

/-- A tree can be shown if its text, should there be one, can be written. -/
def CanShow (h : Host) (s : Settings) (n : Node) : Prop :=
  ∀ t, s.rendering h n = .ok t → s.IsLine t

variable {n : Node} {R : Rules} {xs : List Lexeme} {kind : FormKind}

end Settings

/-! ## Messages -/

/-- What is written to the error output while a session runs. -/
inductive Message where
  /-- Shown when so many characters have been asked for. -/
  | prompt (requests : Nat)
  | record (r : LogRecord)
  | text (t : String)

namespace Message

/-- A message as it is written: texts as the host writes them, records as they are. -/
def shown (h : Host) : Message → String
  | prompt _ => "ready> "
  | record r => r.line ++ "\n"
  | text t => h.echoErr (t ++ "\n")

def record? : Message → Option LogRecord
  | record r => some r
  | _ => none

def text? : Message → Option String
  | text t => some t
  | _ => none

end Message

namespace Settings

/-- The text of the tree that an event hands out. -/
def text? (h : Host) (s : Settings) : Event → Option String
  | .yielded r => r.outcome.toOption.bind fun n => (s.rendering h n).toOption
  | _ => none

/-- Why nothing is written from an event on: there is no text for the log, or none for the
output. -/
def refusal? (h : Host) (s : Settings) : Event → Option Refusal
  | .defined n => n.refusal? h.definitions
  | .yielded ⟨_, .ok n⟩ =>
    match s.rendering h n with
    | .ok _ => none
    | .error r => some r
  | .yielded ⟨_, .error _⟩ => none
  | .prompted _ | .scanned _ | .recovering _ | .succeeded _ | .stopping _ => none

end Settings

namespace Transcript

/-- What has been written when more texts of trees and more messages have been. -/
def add (h : Host) (t : Transcript) (texts : List String) (messages : List Message) : Transcript :=
  ⟨t.out ++ String.join (texts.map (· ++ "\n")),
    t.err ++ String.join (messages.map (Message.shown h))⟩

end Transcript

namespace Settings

variable {e : Event} {events : List Event} {r : Refusal}

/-- Whether the trees that events hand out can be shown. -/
def CanShowAll (h : Host) (s : Settings) (events : List Event) : Prop :=
  ∀ kind n, .yielded ⟨kind, .ok n⟩ ∈ events → s.CanShow h n

theorem CanShowAll.mono {more : List Event} (hshow : s.CanShowAll h more) (hes : events ⊆ more) :
    s.CanShowAll h events :=
  fun kind n hn => hshow kind n (hes hn)

/-! ## Writing -/

end Settings

/-! ## Reports -/

namespace Settings

/-- What is written to the error output when a run has ended with so many errors. -/
def closing (s : Settings) (errors : Nat) : String :=
  (if s.interactive then "\n" else "") ++
    if errors = 0 then "" else Collector.countText errors ++ "\n"

end Settings

section

variable {session : Session} {input : Input} {events : List Event}

end

/-! ## Room -/

namespace Settings

/-- There is room for all that is shown of a result: its tree, if it has one, and the text that the
log is given of a definition. -/
def HasRoom (h : Host) (s : Settings) (r : FormResult) : Prop :=
  ∀ n, r.outcome = .ok n →
    (s.stack h).HasRoom n ∧ (r.kind = .definition → h.definitions.HasRoom n)

/-- What is written of a run, should there not be room for all of it. -/
def front (h : Host) (s : Settings) (events : List Event) : List Event :=
  events.takeWhile fun e => (s.refusal? h e).isNone

end Settings

section

variable {R : Rules} {maxErrors : Int} {file : String} {answers : List (Option Char)}
  {remembersEnd : Bool}

end

/-! ## The command -/

end CommandLine

end OperatorGrammar
