/-!
Reading UTF-8 byte by byte. Only the shortest form of a character counts, and surrogates are no
characters. A byte that cannot go on with what has been read is an error at the sequence that it
breaks off; the error tells which bytes are at fault.
-/

namespace OperatorGrammar.Text.Utf8

/-- What is wrong with a run of bytes. -/
inductive Reason where
  | invalidStart
  | invalidContinuation
  | unexpectedEnd
deriving DecidableEq, Repr

namespace Reason

def text : Reason → String
  | invalidStart => "invalid start byte"
  | invalidContinuation => "invalid continuation byte"
  | unexpectedEnd => "unexpected end of data"

end Reason

/-- Bytes that are no part of a text: how many there are, the position of the first, and which
it is. -/
structure Error where
  reason : Reason
  position : Nat
  count : Nat
  byte : Nat
deriving DecidableEq, Repr

namespace Error

/-- A number below 256 by two digits in base 16. -/
def byteText (b : Nat) : String :=
  String.ofList ['0', 'x', Nat.digitChar (b / 16), Nat.digitChar (b % 16)]

def message (e : Error) : String :=
  let bytes :=
    if e.count = 1 then "byte " ++ byteText e.byte ++ " in position " ++ toString e.position
    else "bytes in position " ++ toString e.position ++ "-" ++ toString (e.position + e.count - 1)
  "'utf-8' codec can't decode " ++ bytes ++ ": " ++ e.reason.text

end Error

/-- The start of a character of several bytes. -/
structure Sequence where
  /-- The first byte. -/
  lead : Nat
  /-- How many bytes have been read. -/
  count : Nat
  /-- The bits that they give. -/
  bits : Nat
  /-- How many bytes are missing. -/
  missing : Nat
  /-- The bounds of the next byte. -/
  least : Nat
  greatest : Nat
deriving DecidableEq, Repr

/-- Where the reader stands. -/
inductive State where
  | between
  | inside (s : Sequence)
  /-- Behind the first two bytes of a surrogate. Nothing can follow. -/
  | surrogate
deriving DecidableEq, Repr

namespace State

/-- How many bytes have been read and given no character yet. -/
def pending : State → Nat
  | between => 0
  | inside s => s.count
  | surrogate => 2

end State

/-- The first byte of a character of two, three or four bytes. The second byte has narrower
bounds where a shorter form, a surrogate or too large a number would follow. -/
def lead? (b : Nat) : Option Sequence :=
  if b < 0xC2 then none
  else if b < 0xE0 then some ⟨b, 1, b - 0xC0, 1, 0x80, 0xBF⟩
  else if b < 0xF0 then
    some ⟨b, 1, b - 0xE0, 2, if b = 0xE0 then 0xA0 else 0x80, if b = 0xED then 0x9F else 0xBF⟩
  else if b < 0xF5 then
    some ⟨b, 1, b - 0xF0, 3, if b = 0xF0 then 0x90 else 0x80, if b = 0xF4 then 0x8F else 0xBF⟩
  else none

/-- Reads a block, of which `position` bytes are behind. A surrogate that the block cuts off is
left for the next one to refuse. -/
def readBlock (position : Nat) (state : State) : List UInt8 → Except Error (List Char × State)
  | [] => .ok ([], state)
  | byte :: rest =>
    let b := byte.toNat
    match state with
    | .surrogate => .error ⟨.invalidContinuation, position - 2, 1, 0xED⟩
    | .between =>
      if b < 0x80 then
        (readBlock (position + 1) .between rest).map fun (cs, last) => (Char.ofNat b :: cs, last)
      else
        match lead? b with
        | none => .error ⟨.invalidStart, position, 1, b⟩
        | some s => readBlock (position + 1) (.inside s) rest
    | .inside s =>
      if s.least ≤ b ∧ b ≤ s.greatest then
        let bits := 64 * s.bits + (b - 0x80)
        if s.missing = 1 then
          (readBlock (position + 1) .between rest).map fun (cs, last) =>
            (Char.ofNat bits :: cs, last)
        else
          readBlock (position + 1)
            (.inside ⟨s.lead, s.count + 1, bits, s.missing - 1, 0x80, 0xBF⟩) rest
      else if s.lead = 0xED ∧ s.count = 1 ∧ 0xA0 ≤ b ∧ b ≤ 0xBF ∧ rest = [] then
        .ok ([], .surrogate)
      else .error ⟨.invalidContinuation, position - s.count, s.count, s.lead⟩

/-- The error, if any, of ending where the reader stands. -/
def endError? : State → Option Error
  | .between => none
  | .inside s => some ⟨.unexpectedEnd, 0, s.count, s.lead⟩
  | .surrogate => some ⟨.invalidContinuation, 0, 1, 0xED⟩

/-- A text read block by block, and the error that ends it, if there is one. A block with an
error gives no text at all, and positions count from the bytes that the block before left over. -/
def readBlocks (state : State) : List (List UInt8) → List Char × Option Error
  | [] => ([], endError? state)
  | block :: rest =>
    match readBlock state.pending state block with
    | .error e => ([], some e)
    | .ok (cs, state) =>
      let (text, e) := readBlocks state rest
      (cs ++ text, e)

/-- Bytes in blocks of a length, the last one perhaps shorter. -/
def blocks (length : Nat) (bytes : List UInt8) : List (List UInt8) :=
  if h : 0 < length ∧ bytes ≠ [] then
    have : (bytes.drop length).length < bytes.length := by
      have := List.length_pos_iff.2 h.2
      simp only [List.length_drop]
      omega
    bytes.take length :: blocks length (bytes.drop length)
  else []
termination_by bytes.length

end OperatorGrammar.Text.Utf8
