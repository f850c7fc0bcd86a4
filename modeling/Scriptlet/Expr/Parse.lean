import Scriptlet.Expr.Basic
import Scriptlet.Parser

/-! Expressions from tokens. From loosest to tightest: assignment, choice, `or`, `and`, equality, order,
sums, products, signs, one step, and what stands alone. Only four places go a level deeper: an assigned
value, the alternate of a choice, the operand of a sign and what parentheses enclose. -/
namespace Scriptlet

/-- The rules one level further in. -/
structure Rules where
  expression : Parser Expr
  choice : Parser Expr
  signed : Parser Expr

namespace Expr

def atom? (t : Token) : Option Expr :=
  match t.kind, t.literal with
  | .falseWord, _ => some (.literal (.bool false))
  | .trueWord, _ => some (.literal (.bool true))
  | .nilWord, _ => some (.literal .nil)
  | .number, some (.number x) => some (.literal (.number x))
  | .string, some (.string s) => some (.literal (.string s))
  | .name, _ => some (.var t)
  | _, _ => none

/-- The operator that a compound assignment applies, at the same place. -/
def compound? (t : Token) : Option Token :=
  match t.kind with
  | .plusEqual => some ⟨.plus, "+", none, t.pos⟩
  | .minusEqual => some ⟨.minus, "-", none, t.pos⟩
  | .starEqual => some ⟨.star, "*", none, t.pos⟩
  | .slashEqual => some ⟨.slash, "/", none, t.pos⟩
  | .percentEqual => some ⟨.percent, "%", none, t.pos⟩
  | _ => none

/-- What a plain or compound assignment stores. -/
def assigned (name operator : Token) (value : Expr) : Expr :=
  match compound? operator with
  | some plain => .assign name (.binary (.var name) plain value)
  | none => .assign name value

end Expr

namespace Parser

def atom : Parser Expr := do
  match (← next?).bind Expr.atom? with
  | some e => fun ts => ⟨some e, ts.tail, []⟩
  | none => fail .expression

def primary (inner : Rules) : Parser Expr := do
  match ← accept [.leftParen] with
  | some _ =>
    let e ← inner.expression
    let _ ← expect .rightParen .closingParen
    return .group e
  | none => atom

def stepped (inner : Rules) : Parser Expr := do
  let operand ← primary inner
  match ← accept [.minusMinus, .plusPlus] with
  | some operator => return .step operand operator
  | none => return operand

def signed (inner : Rules) : Parser Expr := do
  match ← accept [.minus, .bang] with
  | some operator =>
    let right ← inner.signed
    return .unary operator right
  | none => stepped inner

/-- Goes on with operators and operands, grouped to the left, at most `count` times. -/
def chainFrom (kinds : List Kind) (join : Expr → Token → Expr → Expr) (operand : Parser Expr) :
    (count : Nat) → Expr → Parser Expr
  | 0, left => return left
  | count + 1, left => do
    match ← accept kinds with
    | some operator =>
      let right ← operand
      chainFrom kinds join operand count (join left operator right)
    | none => return left

/-- Operands with operators between them. Each operator takes a token, so there are no more of them
than tokens. -/
def chain (kinds : List Kind) (join : Expr → Token → Expr → Expr) (operand : Parser Expr) :
    Parser Expr := do
  let left ← operand
  let count ← remaining
  chainFrom kinds join operand count left

def product (inner : Rules) : Parser Expr :=
  chain [.star, .slash, .percent] .binary (signed inner)

def sum (inner : Rules) : Parser Expr :=
  chain [.minus, .plus] .binary (product inner)

def order (inner : Rules) : Parser Expr :=
  chain [.greater, .greaterEqual, .less, .lessEqual] .binary (sum inner)

def equality (inner : Rules) : Parser Expr :=
  chain [.bangEqual, .equalEqual] .binary (order inner)

def conjunction (inner : Rules) : Parser Expr :=
  chain [.andWord] .logical (equality inner)

def disjunction (inner : Rules) : Parser Expr :=
  chain [.orWord] .logical (conjunction inner)

def choice (inner : Rules) : Parser Expr := do
  let condition ← disjunction inner
  match ← accept [.question] with
  | some _ =>
    let consequent ← disjunction inner
    let _ ← expect .colon .choiceColon
    let alternate ← inner.choice
    return .choice condition consequent alternate
  | none => return condition

/-- Only a name can be assigned to. Anything else is complained about, and the value is dropped. -/
def assignment (inner : Rules) : Parser Expr := do
  let target ← choice inner
  match ← accept [.equal, .plusEqual, .minusEqual, .starEqual, .slashEqual, .percentEqual] with
  | some operator =>
    let value ← inner.expression
    match target with
    | .var name => return Expr.assigned name operator value
    | _ =>
      complain operator .target
      return target
  | none => return target

end Parser

namespace Rules

/-- The rules that may go `depth` levels deep. -/
def within : (depth : Nat) → Rules
  | 0 => ⟨.fail .nesting, .fail .nesting, .fail .nesting⟩
  | depth + 1 =>
    let inner := within depth
    ⟨.assignment inner, .choice inner, .signed inner⟩

end Rules
end Scriptlet
