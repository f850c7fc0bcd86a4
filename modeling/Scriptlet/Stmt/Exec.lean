import Scriptlet.Stmt.Basic
import Scriptlet.Expr.Eval

/-! Running statements. A block, a branch and each round of a loop get a scope of their own, which is
gone again however they end. -/
namespace Scriptlet

/-- Where printed text goes: bytes in order, perhaps with a limit to how many are taken. -/
structure Sink where
  written : ByteArray
  limit : Option Nat

namespace Sink

def ofLimit (limit : Option Nat) : Sink :=
  ⟨.empty, limit⟩

def unlimited : Sink :=
  ofLimit none

def fits (s : Sink) (bytes : ByteArray) : Bool :=
  match s.limit with
  | none => true
  | some limit => s.written.size + bytes.size ≤ limit

/-- Takes the bytes, or as many of them as there is room for. -/
def write (s : Sink) (bytes : ByteArray) : Sink :=
  match s.limit with
  | none => { s with written := s.written ++ bytes }
  | some limit => { s with written := s.written ++ bytes.extract 0 (limit - s.written.size) }

end Sink

structure Machine where
  store : Store
  sink : Sink

/-- How a statement ends early: the whole run stops, or a loop is left. -/
inductive Exit where
  | stop (s : Stop)
  | left
deriving DecidableEq

abbrev Execution := EStateM Exit Machine

namespace Execution

def eval (scope : ScopeId) (e : Expr) : Execution Value :=
  fun m =>
    match e.eval scope m.store with
    | .ok v store => .ok v { m with store }
    | .error stop store => .error (.stop stop) { m with store }

def define (scope : ScopeId) (name : Token) (v : Value) : Execution Unit :=
  modify fun m => { m with store := m.store.define scope name.lexeme v }

/-- A line of text. If the sink has no room for all of it, what fits is written. -/
def print (keyword : Token) (v : Value) : Execution Unit := do
  let line := (v.text ++ "\n").toUTF8
  let fits := (← get).sink.fits line
  modify fun m => { m with sink := m.sink.write line }
  if !fits then
    throw (.stop (.failure ⟨keyword, .output "sink full"⟩))

/-- Runs a body in a new scope inside `outer`. -/
def inScope (outer : ScopeId) (body : ScopeId → Execution Unit) : Execution Unit :=
  fun m =>
    let inner := m.store.size
    match body inner { m with store := m.store.add (some outer) } with
    | .ok a after => .ok a { after with store := after.store.truncate inner }
    | .error exit after => .error exit { after with store := after.store.truncate inner }

/-- Runs the body as long as the condition holds, at most `rounds` times; leaving the loop ends it. -/
def repeatWhile (condition : Execution Value) (body : Execution Unit) :
    (rounds : Nat) → Execution Unit
  | 0 => throw (.stop .exhausted)
  | rounds + 1 => fun m =>
    match condition m with
    | .error exit after => .error exit after
    | .ok v after =>
      if v.truthy then
        match body after with
        | .ok _ again => repeatWhile condition body rounds again
        | .error .left final => .ok () final
        | .error exit final => .error exit final
      else .ok () after

end Execution

namespace Stmt

mutual

/-- Runs a statement in a scope; each loop in it may go at most `rounds` rounds at a time. -/
def exec (rounds : Nat) (scope : ScopeId) : Stmt → Execution Unit
  | .expr e => discard (Execution.eval scope e)
  | .print keyword e => do
    let v ← Execution.eval scope e
    Execution.print keyword v
  | .declare name none => Execution.define scope name .nil
  | .declare name (some e) => do
    let v ← Execution.eval scope e
    Execution.define scope name v
  | .block body => Execution.inScope scope fun inner => execAll rounds inner body
  | .branch condition consequent alternate => do
    let v ← Execution.eval scope condition
    if v.truthy then Execution.inScope scope fun inner => execAll rounds inner consequent
    else Execution.inScope scope fun inner => execAll rounds inner alternate
  | .loop condition body =>
    Execution.repeatWhile (Execution.eval scope condition)
      (Execution.inScope scope fun inner => body.exec rounds inner) rounds
  | .leave _ => throw .left

def execAll (rounds : Nat) (scope : ScopeId) : List Stmt → Execution Unit
  | [] => return ()
  | s :: rest => do
    s.exec rounds scope
    execAll rounds scope rest

end

end Stmt
end Scriptlet
