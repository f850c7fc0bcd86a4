import Scriptlet.Stmt.Basic

/-! Trees in which every operator has a meaning where it stands. -/
namespace Scriptlet

namespace Kind

def isSign (k : Kind) : Bool :=
  k ∈ [.minus, .bang]

def isBinary (k : Kind) : Bool :=
  k ∈ [.equalEqual, .bangEqual, .plus, .minus, .star, .slash, .percent, .greater, .greaterEqual,
    .less, .lessEqual]

def isLogical (k : Kind) : Bool :=
  k ∈ [.andWord, .orWord]

def isStep (k : Kind) : Bool :=
  k ∈ [.plusPlus, .minusMinus]

end Kind

namespace Expr

def proper : Expr → Bool
  | .literal _ => true
  | .var _ => true
  | .assign _ value => value.proper
  | .group inner => inner.proper
  | .unary operator right => operator.kind.isSign && right.proper
  | .binary left operator right => operator.kind.isBinary && left.proper && right.proper
  | .logical left operator right => operator.kind.isLogical && left.proper && right.proper
  | .choice condition consequent alternate =>
    condition.proper && consequent.proper && alternate.proper
  | .step operand operator => operator.kind.isStep && operand.proper

end Expr

namespace Stmt

mutual

def proper : Stmt → Bool
  | .expr e => e.proper
  | .print _ e => e.proper
  | .declare _ initial => initial.all Expr.proper
  | .block body => allProper body
  | .branch condition consequent alternate =>
    condition.proper && allProper consequent && allProper alternate
  | .loop condition body => condition.proper && body.proper
  | .leave _ => true

def allProper : List Stmt → Bool
  | [] => true
  | s :: rest => s.proper && allProper rest

end

end Stmt

end Scriptlet
