import OperatorGrammar.CommandLine.Report

/-!
The command itself: it finds the input, runs on it and writes what there is to write. With prompts
it runs again after each line of standard input and writes what the line has added.
-/

namespace OperatorGrammar.CommandLine

/-- Writes what a transcript has more than an earlier one. -/
def writeMore (before now : Transcript) : IO Unit := do
  (← IO.getStdout).putStr (String.ofList (now.out.toList.drop before.out.length))
  (← IO.getStderr).putStr (String.ofList (now.err.toList.drop before.err.length))
  (← IO.getStdout).flush

/-- The bytes of a stream up to its end. -/
partial def readAll (stream : IO.FS.Stream) (got : ByteArray) : IO ByteArray := do
  let more ← stream.read 65536
  if more.isEmpty then return got else readAll stream (got ++ more)

/-- Runs on a stream line by line. -/
partial def converse (s : Settings) (stream : IO.FS.Stream) (got : ByteArray)
    (written : Transcript) : IO Report := do
  let input := Input.ofBytes got.toList
  let finish (r : Report) : IO Report := do
    writeMore written r.transcript
    return r
  match input.fault, session s input with
  | none, .ok session =>
    let events := (session.drainOn Host.standard.definitions).events
    match s.writeWithin .standard input.text.length events with
    | .ok (w, false) =>
      writeMore written w.transcript
      let line ← stream.getLine
      if line.isEmpty then
        let r := run .standard s input
        writeMore w.transcript r.transcript
        return r
      else converse s stream (got ++ line.toUTF8) w.transcript
    | _ => finish (run .standard s input)
  | _, _ => finish (run .standard s input)

/-- Runs on bytes that are all there. -/
def runOn (s : Settings) (bytes : ByteArray) : IO Report := do
  let r := run .standard s (.ofBytes bytes.toList)
  writeMore .empty r.transcript
  return r

def usageText : String :=
  "Usage: " ++ programName ++ " [OPTIONS] [INPUT_FILE]\n\n"

def refuse (e : UsageError) : IO UInt32 := do
  let text := (if e.isBare then "" else usageText) ++ e.text
  (← IO.getStderr).putStr (Host.standard.echoErr text)
  return 2

def execute (s : Settings) : IO UInt32 := do
  let report : Report ←
    match s.input with
    | none | some "-" =>
      if s.interactive && !s.tokens then converse s (← IO.getStdin) .empty .empty
      else runOn s (← readAll (← IO.getStdin) .empty)
    | some name =>
      match ← (IO.FS.readBinFile name).toBaseIO with
      | .ok bytes => runOn s bytes
      | .error _ => return ← refuse (.unreadable name)
  return report.exit.toUInt32

end OperatorGrammar.CommandLine

open OperatorGrammar.CommandLine in
/-- Runs the command with its arguments and exits as it says. -/
def main (args : List String) : IO UInt32 := do
  match Host.standard.request args with
  | .error e => refuse e
  | .ok .version =>
    (← IO.getStdout).putStr versionText
    return 0
  | .ok (.read s) => execute s
