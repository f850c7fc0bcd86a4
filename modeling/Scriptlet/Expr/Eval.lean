import Scriptlet.Expr.Basic
import Scriptlet.Operator
import Scriptlet.Store

/-! The value of an expression in a scope. Operands are evaluated from left to right, and what was
assigned before a failure stays assigned. -/
namespace Scriptlet

abbrev Evaluation := EStateM Stop Store

namespace Evaluation

def ofExcept {α : Type} : Except Stop α → Evaluation α
  | .ok a => pure a
  | .error stop => throw stop

def get (scope : ScopeId) (name : Token) : Evaluation Value := do
  match (← MonadState.get).get scope name with
  | .ok v => pure v
  | .error f => throw (.failure f)

def assign (scope : ScopeId) (name : Token) (v : Value) : Evaluation Unit := do
  match (← MonadState.get).assign scope name v with
  | .ok store => set store
  | .error f => throw (.failure f)

end Evaluation

namespace Expr

/-- A step writes back only to a name, and yields the old value. All three parts of a choice are
evaluated, whichever is chosen. -/
def eval (scope : ScopeId) : Expr → Evaluation Value
  | .literal v => return v
  | .var name => Evaluation.get scope name
  | .assign name value => do
    let v ← value.eval scope
    Evaluation.assign scope name v
    return v
  | .group inner => inner.eval scope
  | .unary operator right => do
    let r ← right.eval scope
    Evaluation.ofExcept (Operator.unary operator r)
  | .binary left operator right => do
    let l ← left.eval scope
    let r ← right.eval scope
    Evaluation.ofExcept (Operator.binary operator l r)
  | .logical left operator right => do
    let l ← left.eval scope
    if Operator.decides operator l then return l else right.eval scope
  | .choice condition consequent alternate => do
    let c ← condition.eval scope
    let t ← consequent.eval scope
    let e ← alternate.eval scope
    return if c.truthy then t else e
  | .step operand operator => do
    let old ← operand.eval scope
    let x ← Evaluation.ofExcept (Operator.number operator old)
    match operand with
    | .var name => Evaluation.assign scope name (.number (Operator.stepped operator x))
    | _ => pure ()
    return old

end Expr
end Scriptlet
