import Scriptlet.Stmt.Exec
import Scriptlet.Program

/-! A session runs source texts one after another on one machine, which keeps its global scope and its
output from one call to the next. Each text has its own reports. What could be read of a text is run even
if other parts of it were reported. -/
namespace Scriptlet

abbrev Call := EStateM Stop Machine

namespace Machine

def globalScope : ScopeId := 0

def start (sink : Sink) : Machine :=
  ⟨Store.empty.add none, sink⟩

/-- The value of an expression in the global scope. -/
def evaluate (e : Expr) : Call Value :=
  fun m =>
    match e.eval globalScope m.store with
    | .ok v store => .ok v { m with store }
    | .error stop store => .error stop { m with store }

/-- Runs the statements in order, without the gaps. A failure ends the run, and so does leaving a loop
where there is none, though without a word. -/
def run (rounds : Nat) (entries : List (Option Stmt)) : Call Unit :=
  fun m =>
    match Stmt.execAll rounds globalScope (entries.filterMap id) m with
    | .ok _ after => .ok () after
    | .error .left after => .ok () after
    | .error (.stop stop) after => .error stop after

end Machine

/-- What comes of one text: its trees, its reports, and the value of a lone expression. -/
structure Reply where
  parsed : Parsed
  reports : Reports
  echo : Option Value

namespace Session

/-- Adds the failure of a call, if it fails, to the reports. -/
def reporting (reply : Reply) (call : Call Reply) : Call Reply :=
  fun m =>
    match call m with
    | .error (.failure f) after => .ok { reply with reports := reply.reports ++ [.runtime f] } after
    | result => result

def perform (rounds : Nat) (reports : Reports) (parsed : Parsed) : Call Reply :=
  let reply : Reply := ⟨parsed, reports, none⟩
  reporting reply do
    match parsed with
    | .program entries =>
      Machine.run rounds entries
      return reply
    | .expression e =>
      let v ← Machine.evaluate e
      return { reply with echo := if reports.isEmpty then some v else none }

/-- Runs a whole program. -/
def run (rounds : Nat) (source : String) : Call Reply :=
  let scanned := scan source
  let reading := parse scanned.tokens
  perform rounds (scanned.reports ++ reading.reports) reading.parsed

/-- Runs one line, which may be a lone expression. Its value is echoed if there is no report. -/
def runLine (rounds : Nat) (source : String) : Call Reply :=
  let scanned := scan source
  let reading := parseLine scanned.tokens
  perform rounds (scanned.reports ++ reading.reports) reading.parsed

end Session
end Scriptlet
