import Scriptlet.Program

/-! Reading with an index. The tokens stay in an array and a cursor moves over them, with counters
for how deep it is in rules and in loops, and with the words that close the bodies around it. To
look outside of the array, to count below zero, to go on in a loop for longer than there are tokens
and to recurse deeper than the counter allows are defects: there is no way on from them. -/
namespace Scriptlet

structure Cursor where
  tokens : Array Token
  current : Nat
  depth : Nat
  loopDepth : Nat
  bodyEnds : List (List Kind)
  allowExpression : Bool
  foundExpression : Bool
  reports : Reports

namespace Cursor

def start (tokens : Array Token) : Cursor :=
  ⟨tokens, 0, 0, 0, [], false, false, []⟩

end Cursor

inductive Arrival (α : Type) where
  | value (a : α) (c : Cursor)
  | failure (c : Cursor)
  | defect

def Walk (α : Type) : Type :=
  Cursor → Arrival α

namespace Walk

protected def pure {α : Type} (a : α) : Walk α :=
  fun c => .value a c

protected def bind {α β : Type} (w : Walk α) (f : α → Walk β) : Walk β :=
  fun c =>
    match w c with
    | .value a c' => f a c'
    | .failure c' => .failure c'
    | .defect => .defect

instance : Monad Walk where
  pure := Walk.pure
  bind := Walk.bind

def defect {α : Type} : Walk α :=
  fun _ => .defect

def state : Walk Cursor :=
  fun c => .value c c

def update (f : Cursor → Cursor) : Walk Unit :=
  fun c => .value () (f c)

def peek : Walk Token :=
  fun c =>
    if c.tokens.size = 0 then .defect
    else
      match c.tokens[min c.current (c.tokens.size - 1)]? with
      | some t => .value t c
      | none => .defect

def previous : Walk Token :=
  fun c =>
    match c.tokens[c.current - 1]? with
    | some t => .value t c
    | none => .defect

def atEnd : Walk Bool := do
  return (← peek).kind = .finish

def advance : Walk Token := do
  if ← atEnd then
    previous
  else
    update fun c => { c with current := c.current + 1 }
    previous

def check (kind : Kind) : Walk Bool := do
  if ← atEnd then return false else return (← peek).kind = kind

def matchKinds : List Kind → Walk Bool
  | [] => return false
  | kind :: kinds => do
    if ← check kind then
      let _ ← advance
      return true
    else matchKinds kinds

def report (t : Token) (m : Mistake) : Walk Unit :=
  update fun c => { c with reports := c.reports ++ [.grammar t m.message] }

def error {α : Type} (t : Token) (m : Mistake) : Walk α := do
  report t m
  fun c => .failure c

def consume (kind : Kind) (m : Mistake) : Walk Token := do
  if ← check kind then advance else error (← peek) m

/-- Does something after a walk, whether it failed or not. -/
def andThen {α : Type} (w : Walk α) (last : Walk Unit) : Walk α :=
  fun c =>
    match w c with
    | .value a c' => Walk.bind last (fun _ => Walk.pure a) c'
    | .failure c' => Walk.bind last (fun _ c'' => .failure c'') c'
    | .defect => .defect

/-- Turns a failure into a gap after a way on is found. -/
def orElse {α : Type} (w : Walk α) (resume : Walk Unit) : Walk (Option α) :=
  fun c =>
    match w c with
    | .value a c' => .value (some a) c'
    | .failure c' => Walk.bind resume (fun _ => Walk.pure none) c'
    | .defect => .defect

def leaveRule : Walk Unit :=
  fun c =>
    match c.depth with
    | 0 => .defect
    | depth + 1 => .value () { c with depth }

def leaveLoop : Walk Unit :=
  fun c =>
    match c.loopDepth with
    | 0 => .defect
    | loopDepth + 1 => .value () { c with loopDepth }

/-- A rule one level deeper, unless that is too deep. -/
def nested {α : Type} (rule : Walk α) : Walk α := do
  if nestingLimit ≤ (← state).depth then
    error (← peek) .nesting
  else
    update fun c => { c with depth := c.depth + 1 }
    rule.andThen leaveRule

end Walk

structure Walks where
  expression : Walk Expr
  choice : Walk Expr
  signed : Walk Expr
  statement : Walk Stmt

namespace Walk

section Expressions

variable (inner : Walks)

def primary : Walk Expr := do
  let token ← peek
  match Expr.atom? token with
  | some e =>
    let _ ← advance
    return e
  | none =>
    if token.kind = .leftParen then
      let _ ← advance
      let e ← inner.expression
      let _ ← consume .rightParen .closingParen
      return .group e
    else error token .expression

def stepped : Walk Expr := do
  let operand ← primary inner
  if ← matchKinds [.minusMinus, .plusPlus] then
    let operator ← previous
    return .step operand operator
  else return operand

def signed : Walk Expr := do
  if ← matchKinds [.minus, .bang] then
    let operator ← previous
    let right ← inner.signed
    return .unary operator right
  else stepped inner

def chainLoop (kinds : List Kind) (join : Expr → Token → Expr → Expr) (operand : Walk Expr) :
    (count : Nat) → Expr → Walk Expr
  | 0, _ => defect
  | count + 1, left => do
    if ← matchKinds kinds then
      let operator ← previous
      let right ← operand
      chainLoop kinds join operand count (join left operator right)
    else return left

def chain (kinds : List Kind) (join : Expr → Token → Expr → Expr) (operand : Walk Expr) :
    Walk Expr := do
  let left ← operand
  chainLoop kinds join operand (← state).tokens.size left

def product : Walk Expr :=
  chain [.star, .slash, .percent] .binary (signed inner)

def sum : Walk Expr :=
  chain [.minus, .plus] .binary (product inner)

def order : Walk Expr :=
  chain [.greater, .greaterEqual, .less, .lessEqual] .binary (sum inner)

def equality : Walk Expr :=
  chain [.bangEqual, .equalEqual] .binary (order inner)

def conjunction : Walk Expr :=
  chain [.andWord] .logical (equality inner)

def disjunction : Walk Expr :=
  chain [.orWord] .logical (conjunction inner)

def choice : Walk Expr := do
  let condition ← disjunction inner
  if ← matchKinds [.question] then
    let consequent ← disjunction inner
    let _ ← consume .colon .choiceColon
    let alternate ← inner.choice
    return .choice condition consequent alternate
  else return condition

def assignment : Walk Expr := do
  let target ← choice inner
  if ← matchKinds [.equal, .plusEqual, .minusEqual, .starEqual, .slashEqual, .percentEqual] then
    let operator ← previous
    let value ← inner.expression
    match target with
    | .var name => return Expr.assigned name operator value
    | _ =>
      report operator .target
      return target
  else return target

end Expressions

section Statements

def matchWord (kind : Kind) : Walk Bool := do
  if ← matchKinds [kind] then
    update fun c => { c with allowExpression := false }
    return true
  else return false

def skip : (count : Nat) → Walk Unit
  | 0 => defect
  | count + 1 => do
    if ← atEnd then return ()
    else if (← previous).kind = .semicolon then return ()
    else if (← peek).kind ∈ Kind.resuming then return ()
    else
      let _ ← advance
      skip count

/-- Finds the way on after a mistake. -/
def synchronize : Walk Unit := do
  let kind := (← peek).kind
  if kind ∈ (← state).bodyEnds.headD [] then return ()
  else
    let _ ← advance
    skip (← state).tokens.size

variable (inner : Walks)

def declaration : Walk Stmt := do
  let name ← consume .name .variableName
  let initial ← if ← matchKinds [.equal] then some <$> inner.expression else pure none
  let _ ← consume .semicolon .declarationEnd
  return .declare name initial

def printStatement : Walk Stmt := do
  let keyword ← previous
  let e ← inner.expression
  let _ ← consume .semicolon .printEnd
  return .print keyword e

/-- Whether a lone expression may end here. -/
def endsBare : Walk Bool := do
  if (← state).allowExpression then atEnd else return false

def expressionStatement : Walk Stmt := do
  let e ← inner.expression
  if ← endsBare then
    update fun c => { c with foundExpression := true }
    return .expr e
  else
    let _ ← consume .semicolon .expressionEnd
    return .expr e

def breakStatement : Walk Stmt := do
  let keyword ← previous
  if (← state).loopDepth = 0 then
    report keyword .strayBreak
    let _ ← consume .semicolon .breakEnd
    return .leave keyword
  else
    let _ ← consume .semicolon .breakEnd
    return .leave keyword

def item : Walk Stmt := do
  if ← matchWord .letWord then declaration inner else inner.statement

def entry : Walk (Option Stmt) :=
  (item inner).orElse synchronize

def anyCheck : List Kind → Walk Bool
  | [] => return false
  | kind :: kinds => do
    if ← check kind then return true else anyCheck kinds

def entries (closers : List Kind) : (count : Nat) → Walk (List (Option Stmt))
  | 0 => defect
  | count + 1 => do
    if ← anyCheck closers then return []
    else if ← atEnd then return []
    else
      let first ← entry inner
      let rest ← entries closers count
      return first :: rest

def body (closers : List Kind) : Walk (List Stmt) := do
  update fun c => { c with bodyEnds := closers :: c.bodyEnds }
  let found ← entries inner closers (← state).tokens.size
  update fun c => { c with bodyEnds := c.bodyEnds.tail }
  return found.filterMap id

def block : Walk Stmt := do
  let statements ← body inner [.endWord]
  let _ ← consume .endWord .blockEnd
  return .block statements

def branch : Walk Stmt := do
  let condition ← inner.expression
  let _ ← consume .thenWord .branchThen
  let consequent ← body inner [.elseWord, .endWord]
  let alternate ← if ← matchKinds [.elseWord] then body inner [.endWord] else pure []
  let _ ← consume .endWord .branchEnd
  return .branch condition consequent alternate

def loopBody : Walk Stmt := do
  update fun c => { c with loopDepth := c.loopDepth + 1 }
  inner.statement.andThen leaveLoop

def whileLoop : Walk Stmt := do
  let condition ← inner.expression
  let round ← loopBody inner
  return .loop condition round

def initialStatement : Walk (Option Stmt) := do
  if ← matchKinds [.semicolon] then return none
  else if ← matchKinds [.letWord] then some <$> declaration inner
  else some <$> expressionStatement inner

def optionalExpression (closer : Kind) : Walk (Option Expr) := do
  if ← check closer then return none else some <$> inner.expression

def forLoop : Walk Stmt := do
  let _ ← consume .leftParen .forParen
  let initial ← initialStatement inner
  let condition ← optionalExpression inner .semicolon
  let _ ← consume .semicolon .forCondition
  let increment ← optionalExpression inner .rightParen
  let _ ← consume .rightParen .forClauses
  let round ← loopBody inner
  return .counting initial condition increment round

def statement : Walk Stmt := do
  if ← matchWord .printWord then printStatement inner
  else if ← matchWord .doWord then block inner
  else if ← matchWord .ifWord then branch inner
  else if ← matchWord .whileWord then whileLoop inner
  else if ← matchWord .forWord then forLoop inner
  else if ← matchWord .breakWord then breakStatement
  else expressionStatement inner

end Statements

end Walk

namespace Walks

def levels : Nat → Walks
  | 0 => ⟨.defect, .defect, .defect, .defect⟩
  | n + 1 =>
    let inner := levels n
    ⟨.nested (.assignment inner), .nested (.choice inner), .nested (.signed inner),
      .nested (.statement inner)⟩

/-- One level more than may nest, for the rule that finds the limit reached. -/
def all : Walks :=
  levels (nestingLimit + 1)

end Walks

namespace Walk

def program : Walk Parsed := do
  return .program (← entries .all [] (← state).tokens.size)

def lineLoop : (count : Nat) → List (Option Stmt) → Walk Parsed
  | 0, _ => defect
  | count + 1, found => do
    if ← atEnd then return .program found
    else
      let next ← entry .all
      match (← state).foundExpression, next with
      | true, some (.expr e) => return .expression e
      | _, _ =>
        update fun c => { c with allowExpression := false }
        lineLoop count (found ++ [next])

def line : Walk Parsed := do
  update fun c => { c with allowExpression := true }
  lineLoop (← state).tokens.size []

end Walk
end Scriptlet
