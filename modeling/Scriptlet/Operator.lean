import Scriptlet.Failure

/-! What operators do to values. -/
namespace Scriptlet

inductive Arity where
  | unary
  | binary
deriving DecidableEq, Repr

/-- Why evaluation stops: a failure of the program, a tree with an operator that has no meaning in its
place, or a loop that used up its rounds. -/
inductive Stop where
  | failure (f : Failure)
  | malformed (arity : Arity) (kind : Kind)
  | exhausted
deriving DecidableEq

namespace Operator

def number (operator : Token) (v : Value) : Except Stop Float :=
  match v.number? with
  | some x => .ok x
  | none => .error (.failure (.needsNumber operator))

/-- Sums of numbers or of strings. -/
def add (operator : Token) : Value → Value → Except Stop Value
  | .number x, .number y => .ok (.number (x + y))
  | .string s, .string t => .ok (.string (s ++ t))
  | _, _ => .error (.failure (.needsNumbersOrStrings operator))

/-- Neither operand of a division may be zero. -/
def divide (operator : Token) (x y : Float) : Except Stop Value :=
  if x == 0.0 || y == 0.0 then .error (.failure (.zeroDivision operator))
  else .ok (.number (x / y))

def onNumbers (operator : Token) (x y : Float) : Except Stop Value :=
  match operator.kind with
  | .minus => .ok (.number (x - y))
  | .star => .ok (.number (x * y))
  | .slash => divide operator x y
  | .percent => .ok (.number (Number.remainder x y))
  | .greater => .ok (.bool (y < x))
  | .greaterEqual => .ok (.bool (y ≤ x))
  | .less => .ok (.bool (x < y))
  | .lessEqual => .ok (.bool (x ≤ y))
  | kind => .error (.malformed .binary kind)

def binary (operator : Token) (left right : Value) : Except Stop Value :=
  match operator.kind with
  | .equalEqual => .ok (.bool (left.equal right))
  | .bangEqual => .ok (.bool (!left.equal right))
  | .plus => add operator left right
  | _ =>
    match left.number?, right.number? with
    | some x, some y => onNumbers operator x y
    | _, _ => .error (.failure (.needsNumbers operator))

def unary (operator : Token) (right : Value) : Except Stop Value :=
  match operator.kind with
  | .minus => do return .number (-(← number operator right))
  | .bang => .ok (.bool !right.truthy)
  | kind => .error (.malformed .unary kind)

/-- Whether the left operand of `or` or `and` already is the result. -/
def decides (operator : Token) (left : Value) : Bool :=
  if operator.kind = .orWord then left.truthy else !left.truthy

/-- The number after a step. -/
def stepped (operator : Token) (x : Float) : Float :=
  if operator.kind = .plusPlus then x + 1.0 else x - 1.0

end Operator
end Scriptlet
