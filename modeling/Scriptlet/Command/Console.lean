import Scriptlet.Command.Args
import Scriptlet.Session

/-! Running a command. Standard output is the output of the session's machine, with prompts and echoes in
between; trees, reports and complaints about the surroundings go to standard error. -/
namespace Scriptlet

/-! The lines of an input. A line ends with a newline or a carriage return and a newline; the last one may
lack both, and there is no line after the last newline. -/

namespace Lines

def newline : UInt8 := 10

def carriageReturn : UInt8 := 13

/-- Puts a byte in front of the first line. -/
def extend (b : UInt8) : List (List UInt8) → List (List UInt8)
  | [] => [[b]]
  | line :: rest => (b :: line) :: rest

def split : List UInt8 → List (List UInt8)
  | [] => []
  | [b] => if b = newline then [[]] else [[b]]
  | b :: c :: bs =>
    if b = newline then [] :: split (c :: bs)
    else if b = carriageReturn ∧ c = newline then [] :: split bs
    else extend b (split (c :: bs))

end Lines

/-- The white space characters, as ranges of their numbers. -/
def whiteSpace : List (Nat × Nat) :=
  [(0x9, 0xd), (0x20, 0x20), (0x85, 0x85), (0xa0, 0xa0), (0x1680, 0x1680), (0x2000, 0x200a),
    (0x2028, 0x2029), (0x202f, 0x202f), (0x205f, 0x205f), (0x3000, 0x3000)]

def isWhiteSpace (c : Char) : Bool :=
  whiteSpace.any fun (low, high) => low ≤ c.toNat && c.toNat ≤ high

/-- A line with nothing but white space. -/
def isBlankLine (line : String) : Bool :=
  line.toList.all isWhiteSpace

/-! Colours on a terminal. -/

inductive Style where
  | red
  | blue
  | boldBlue
  | boldYellow
deriving DecidableEq, Repr

namespace Style

def escape (code : String) : String :=
  "\x1b[" ++ code ++ "m"

def reset : String :=
  escape "0"

def opening : Style → String
  | .red => escape "31"
  | .blue => escape "34"
  | .boldBlue => escape "1;34"
  | .boldYellow => escape "1;33"

/-- A reset inside the text would end the style early, so the style is opened again after it. -/
def paint (coloured : Bool) (style : Style) (text : String) : String :=
  if coloured then style.opening ++ text.replace reset (reset ++ style.opening) ++ reset
  else text

end Style

/-- Why a text could not be read. -/
inductive ReadError where
  | missing
  | notDirectory
  | directory
  | nameTooLong
  | notText
  | other (text : String)
deriving DecidableEq, Repr

namespace ReadError

def message : ReadError → String
  | .missing => "No such file or directory (os error 2)"
  | .notDirectory => "Not a directory (os error 20)"
  | .directory => "Is a directory (os error 21)"
  | .nameTooLong => "File name too long (os error 36)"
  | .notText => "stream did not contain valid UTF-8"
  | .other text => text

end ReadError

/-- How a command shows what it does. -/
structure Display where
  coloured : Bool
  showTrees : Bool

structure Console where
  machine : Machine
  errors : String

/-- A part of a command. -/
abbrev Action := EStateM Stop Console

namespace ExitCode

def success : UInt32 := 0
def usage : UInt32 := 64
def reported : UInt32 := 70
def unreadable : UInt32 := 74

end ExitCode

namespace Console

def start : Console :=
  ⟨.start .unlimited, ""⟩

def say (text : String) : Action Unit :=
  modify fun c =>
    { c with machine := { c.machine with sink := c.machine.sink.write text.toUTF8 } }

def complain (text : String) : Action Unit :=
  modify fun c => { c with errors := c.errors ++ text ++ "\n" }

def treeTexts : Parsed → List String
  | .expression e => [e.text]
  | .program entries => (entries.filterMap id).map Stmt.text

/-- The trees of a text, shown if asked for. -/
def showTrees (d : Display) (parsed : Parsed) : Action Unit :=
  if d.showTrees then
    (treeTexts parsed).forM fun text => complain (Style.blue.paint d.coloured text)
  else pure ()

def tagged (d : Display) (tag text : String) : String :=
  Style.red.paint d.coloured ("[" ++ tag ++ "]") ++ " " ++ Style.red.paint d.coloured text

def reportText (d : Display) (r : Report) : String :=
  if r.kind.atRuntime then tagged d r.kind.text r.text
  else Style.boldYellow.paint d.coloured r.text

/-- Runs one text on the machine and shows its trees. -/
def perform (d : Display) (call : Call Reply) : Action Reply := do
  let reply ← fun c =>
    match call c.machine with
    | .ok reply machine => .ok reply { c with machine }
    | .error stop machine => .error stop { c with machine }
  showTrees d reply.parsed
  return reply

def showReports (d : Display) (reports : Reports) : Action Unit :=
  reports.forM fun r => complain (reportText d r)

/-- The end of a command that runs one text. -/
def finish (d : Display) (reports : Reports) : Action UInt32 := do
  showReports d reports
  return if reports.isEmpty then ExitCode.success else ExitCode.reported

def unreadable (d : Display) (text : String) : Action UInt32 := do
  complain (tagged d "Error" text)
  return ExitCode.unreadable

def decode (bytes : ByteArray) : Except ReadError String :=
  match String.fromUTF8? bytes with
  | some text => .ok text
  | none => .error .notText

def runFile (rounds : Nat) (d : Display) (path : String) (content : Except ReadError ByteArray) :
    Action UInt32 := do
  match content >>= decode with
  | .ok source =>
    let reply ← perform d (Session.run rounds source)
    finish d reply.reports
  | .error e => unreadable d ("could not read " ++ path ++ ": " ++ e.message)

def runSource (rounds : Nat) (d : Display) (source : String) : Action UInt32 := do
  let reply ← perform d (Session.runLine rounds source)
  match reply.echo with
  | some v => say (v.text ++ "\n")
  | none => pure ()
  finish d reply.reports

def prompt : Action Unit :=
  say "> "

/-- One line of a conversation. Blank lines are passed over. -/
def answer (rounds : Nat) (d : Display) (line : String) : Action Unit := do
  if isBlankLine line then
    return ()
  let reply ← perform d (Session.runLine rounds line)
  match reply.echo with
  | some v => say (Style.boldBlue.paint d.coloured v.text ++ "\n")
  | none => pure ()
  showReports d reply.reports

/-- One line of a conversation as it came in. If it is not text, the command ends with the given code. -/
def turn (rounds : Nat) (d : Display) (line : List UInt8) : Action (Option UInt32) := do
  match decode ⟨line.toArray⟩ with
  | .ok text =>
    answer rounds d text
    return none
  | .error e =>
    let code ← unreadable d e.message
    return some code

/-- The end of a conversation. -/
def farewell : Action UInt32 := do
  say "\n"
  return ExitCode.success

/-- A whole conversation, with a prompt before each line and before the end. -/
def converse (rounds : Nat) (d : Display) : List (List UInt8) → Action UInt32
  | [] => do
    prompt
    farewell
  | line :: rest => do
    prompt
    match ← turn rounds d line with
    | some code => return code
    | none => converse rounds d rest

/-- What was written so far, and the console without it. -/
def drain (c : Console) : ByteArray × String × Console :=
  (c.machine.sink.written, c.errors, ⟨{ c.machine with sink := .unlimited }, ""⟩)

end Console

/-- What a command finds around it: files, its input, and whether colours are wanted. -/
structure Surroundings where
  file : String → Except ReadError ByteArray
  input : ByteArray
  coloured : Bool

/-- What a command leaves behind. -/
structure Outcome where
  exit : UInt32
  output : ByteArray
  errors : String

namespace Request

def versionText : String :=
  "eevee 0.1.0\n"

def usageText : String :=
  "Usage: eevee [--print-ast] [--verbose] (--file <PATH> | --eval <SOURCE> | --interactive)\n"

def act (rounds : Nat) (s : Surroundings) (o : Options) : Action UInt32 :=
  let d : Display := ⟨s.coloured, o.showTrees⟩
  match o.mode with
  | .file path => Console.runFile rounds d path (s.file path)
  | .source text => Console.runSource rounds d text
  | .prompt => Console.converse rounds d (Lines.split s.input.toList)

/-- A whole command: its exit code and all it writes. -/
def perform (rounds : Nat) (s : Surroundings) (words : List String) : Except Stop Outcome :=
  match ofWords words with
  | none => .ok ⟨ExitCode.usage, .empty, usageText⟩
  | some .version => .ok ⟨ExitCode.success, versionText.toUTF8, ""⟩
  | some .help => .ok ⟨ExitCode.success, usageText.toUTF8, ""⟩
  | some (.start o) =>
    match act rounds s o .start with
    | .ok exit c => .ok ⟨exit, c.machine.sink.written, c.errors⟩
    | .error stop _ => .error stop

end Request
end Scriptlet
