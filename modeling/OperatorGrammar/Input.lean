import OperatorGrammar.Text.Utf8

/-!
Inputs as a program gets them: bytes in UTF-8, read in blocks. Each of the usual line ends counts
as a line feed. An input with bytes at fault ends there; what was read before remains.
-/

namespace OperatorGrammar

structure Input where
  /-- The characters that can be read. -/
  text : List Char
  /-- What is met by asking for more, if the input does not end there. -/
  fault : Option Text.Utf8.Error
deriving Repr

namespace Input

/-- The number of bytes that are read at a time. -/
def blockLength : Nat := 8192

/-- A carriage return, with a line feed behind it or not, is replaced by a line feed. -/
def unifyLineEnds : List Char → List Char
  | [] => []
  | '\r' :: '\n' :: rest => '\n' :: unifyLineEnds rest
  | '\r' :: rest => '\n' :: unifyLineEnds rest
  | c :: rest => c :: unifyLineEnds rest

/-- Removes a carriage return from the end of a text. -/
def dropLastReturn (text : List Char) : List Char :=
  match text.getLast? with
  | some '\r' => text.dropLast
  | _ => text

/-- Decodes an input. A carriage return in front of a fault is not handed out, since it is not
known whether a line feed belongs to it. -/
def ofBytes (bytes : List UInt8) : Input :=
  match Text.Utf8.readBlocks .between (Text.Utf8.blocks blockLength bytes) with
  | (text, none) => ⟨unifyLineEnds text, none⟩
  | (text, some e) => ⟨unifyLineEnds (dropLastReturn text), some e⟩

end Input

end OperatorGrammar
