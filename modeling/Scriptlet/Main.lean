import Scriptlet.Command.Console

/-! The program itself: it reads files and lines, and writes what the console has to say. -/
namespace Scriptlet.Main

/-- More rounds than a loop can go. -/
def rounds : Nat := Nat.pow 2 62

/-- The system's number for the attempt to read a directory. -/
def directoryCode : UInt32 := 21

def readError : IO.Error → ReadError
  | .noFileOrDirectory .. => .missing
  | .inappropriateType _ code _ => if code = directoryCode then .directory else .notDirectory
  | e => .other (toString e)

def readFile (path : String) : IO (Except ReadError ByteArray) := do
  try
    return .ok (← IO.FS.readBinFile path)
  catch e =>
    return .error (readError e)

/-- The bytes of the next line, with its newline; none at the end. -/
partial def readLine (input : IO.FS.Stream) (found : List UInt8) : IO (List UInt8) := do
  let byte ← input.read 1
  match byte.toList with
  | [] => return found.reverse
  | b :: _ => if b == Lines.newline then return (b :: found).reverse else readLine input (b :: found)

/-- Writes out what the console holds. -/
def flush (c : Console) : IO Console := do
  let (output, errors, rest) := c.drain
  let out ← IO.getStdout
  out.write output
  out.flush
  IO.eprint errors
  return rest

/-- Performs a part of a command and writes out what it says; nothing if it cannot be finished. -/
def perform {α : Type} (action : Action α) (c : Console) : IO (Option α × Console) := do
  match action c with
  | .ok a after => return (some a, ← flush after)
  | .error _ after => return (none, ← flush after)

partial def converse (d : Display) (input : IO.FS.Stream) (c : Console) : IO UInt32 := do
  let (_, prompted) ← perform Console.prompt c
  match Lines.split (← readLine input []) with
  | [] =>
    let (code, _) ← perform Console.farewell prompted
    return code.getD ExitCode.reported
  | line :: _ =>
    match ← perform (Console.turn rounds d line) prompted with
    | (some none, next) => converse d input next
    | (some (some code), _) => return code
    | (none, _) => return ExitCode.reported

def coloured : IO Bool := do
  if (← IO.getEnv "NO_COLOR").isSome then return false
  if (← IO.getEnv "CLICOLOR_FORCE").isSome then return true
  (← IO.getStdout).isTty

def start (o : Options) : IO UInt32 := do
  let d : Display := ⟨← coloured, o.showTrees⟩
  match o.mode with
  | .prompt => converse d (← IO.getStdin) .start
  | .source text =>
    let (code, _) ← perform (Console.runSource rounds d text) .start
    return code.getD ExitCode.reported
  | .file path =>
    let (code, _) ← perform (Console.runFile rounds d path (← readFile path)) .start
    return code.getD ExitCode.reported

end Scriptlet.Main

open Scriptlet in
def main (words : List String) : IO UInt32 := do
  match Request.ofWords words with
  | none =>
    IO.eprint Request.usageText
    return ExitCode.usage
  | some .version =>
    IO.print Request.versionText
    return ExitCode.success
  | some .help =>
    IO.print Request.usageText
    return ExitCode.success
  | some (.start o) => Main.start o
