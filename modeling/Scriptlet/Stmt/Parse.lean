import Scriptlet.Stmt.Basic
import Scriptlet.Expr.Parse

/-! Statements from tokens. A statement that cannot be read leaves a gap in its body: tokens are dropped
up to a place where a statement may begin or a body may close, so that one mistake is complained about
once. -/
namespace Scriptlet

/-- What surrounds a statement: whether it is inside a loop, and the words that close the body it
stands in. -/
structure Setting where
  inLoop : Bool
  closers : List Kind

namespace Setting

def top : Setting := ⟨false, []⟩

def looped (s : Setting) : Setting := { s with inLoop := true }

def closedBy (s : Setting) (closers : List Kind) : Setting := { s with closers }

end Setting

namespace Kind

/-- The words before which reading may go on after a mistake. -/
def resuming : List Kind :=
  [.classWord, .defWord, .doWord, .ifWord, .forWord, .lambdaWord, .matchWord, .printWord,
    .returnWord, .letWord, .whileWord, .breakWord, .elseWord, .endWord]

/-- The words that open a statement which is not an expression. -/
def opening : List Kind :=
  [.letWord, .printWord, .doWord, .ifWord, .whileWord, .forWord, .breakWord]

end Kind

namespace Parser

/-- Drops tokens after `last`, up to just past a semicolon or right before a resuming word. -/
def skipAfter (last : Token) : List Token → List Token
  | [] => []
  | t :: ts =>
    if last.kind = .semicolon ∨ t.kind ∈ Kind.resuming then t :: ts else skipAfter t ts

/-- Where reading goes on after a mistake. The word that closes the body stays; any other token at the
mistake is dropped. -/
def resume (closers : List Kind) : List Token → List Token
  | [] => []
  | t :: ts => if t.kind ∈ closers then t :: ts else skipAfter t ts

/-- What follows `let`. -/
def declaration (inner : Rules) : Parser Stmt := do
  let name ← expect .name .variableName
  let initial ← match ← accept [.equal] with
    | some _ => some <$> inner.expression
    | none => pure none
  let _ ← expect .semicolon .declarationEnd
  return .declare name initial

def expressionStatement (inner : Rules) : Parser Stmt := do
  let e ← inner.expression
  let _ ← expect .semicolon .expressionEnd
  return .expr e

def printStatement (inner : Rules) (keyword : Token) : Parser Stmt := do
  let e ← inner.expression
  let _ ← expect .semicolon .printEnd
  return .print keyword e

def breakStatement (setting : Setting) (keyword : Token) : Parser Stmt := do
  if !setting.inLoop then
    complain keyword .strayBreak
  let _ ← expect .semicolon .breakEnd
  return .leave keyword

/-- A statement or declaration, or the gap that a mistake leaves. -/
def entry (inner : Rules) (statement : Setting → Parser Stmt) (setting : Setting) :
    Parser (Option Stmt) :=
  recover (resume setting.closers) do
    match ← accept [.letWord] with
    | some _ => declaration inner
    | none => statement setting

/-- Entries up to a closing word or the end, at most `count`. -/
def entriesUpTo (entry : Parser (Option Stmt)) (closers : List Kind) :
    (count : Nat) → Parser (List (Option Stmt))
  | 0 => return []
  | count + 1 => do
    match ← next? with
    | none => return []
    | some t =>
      if t.kind ∈ closers then
        return []
      else
        let first ← entry
        let rest ← entriesUpTo entry closers count
        return first :: rest

/-- Entries up to a closing word or the end. Each takes a token, so there are no more of them than
tokens. -/
def entries (entry : Setting → Parser (Option Stmt)) (setting : Setting) :
    Parser (List (Option Stmt)) := do
  let count ← remaining
  entriesUpTo (entry setting) setting.closers count

/-- The statements of a body, without its gaps. -/
def body (inner : Rules) (statement : Setting → Parser Stmt) (setting : Setting) :
    Parser (List Stmt) := do
  let found ← entries (entry inner statement) setting
  return found.filterMap id

def block (inner : Rules) (statement : Setting → Parser Stmt) (setting : Setting) :
    Parser Stmt := do
  let statements ← body inner statement (setting.closedBy [.endWord])
  let _ ← expect .endWord .blockEnd
  return .block statements

def branch (inner : Rules) (statement : Setting → Parser Stmt) (setting : Setting) :
    Parser Stmt := do
  let condition ← inner.expression
  let _ ← expect .thenWord .branchThen
  let consequent ← body inner statement (setting.closedBy [.elseWord, .endWord])
  let alternate ← match ← accept [.elseWord] with
    | some _ => body inner statement (setting.closedBy [.endWord])
    | none => pure []
  let _ ← expect .endWord .branchEnd
  return .branch condition consequent alternate

def whileLoop (inner : Rules) (statement : Setting → Parser Stmt) (setting : Setting) :
    Parser Stmt := do
  let condition ← inner.expression
  let round ← statement setting.looped
  return .loop condition round

def initialStatement (inner : Rules) : Parser (Option Stmt) := do
  match ← accept [.semicolon] with
  | some _ => return none
  | none =>
    match ← accept [.letWord] with
    | some _ => some <$> declaration inner
    | none => some <$> expressionStatement inner

/-- An expression, unless a token of this kind comes first. -/
def optionalExpression (inner : Rules) (closer : Kind) : Parser (Option Expr) := do
  match ← next? with
  | some t => if t.kind = closer then return none else some <$> inner.expression
  | none => some <$> inner.expression

def forLoop (inner : Rules) (statement : Setting → Parser Stmt) (setting : Setting) :
    Parser Stmt := do
  let _ ← expect .leftParen .forParen
  let initial ← initialStatement inner
  let condition ← optionalExpression inner .semicolon
  let _ ← expect .semicolon .forCondition
  let increment ← optionalExpression inner .rightParen
  let _ ← expect .rightParen .forClauses
  let round ← statement setting.looped
  return .counting initial condition increment round

/-- A statement whose parts are read by the given rules; its first word decides which. -/
def statementWith (inner : Rules) (statement : Setting → Parser Stmt) (setting : Setting) :
    Parser Stmt := do
  match ← accept [.printWord, .doWord, .ifWord, .whileWord, .forWord, .breakWord] with
  | none => expressionStatement inner
  | some keyword =>
    match keyword.kind with
    | .printWord => printStatement inner keyword
    | .doWord => block inner statement setting
    | .ifWord => branch inner statement setting
    | .whileWord => whileLoop inner statement setting
    | .forWord => forLoop inner statement setting
    | _ => breakStatement setting keyword

/-- A statement that may go `depth` levels deep. -/
def statement : (depth : Nat) → Setting → Parser Stmt
  | 0, _ => fail .nesting
  | depth + 1, setting => statementWith (Rules.within depth) (statement depth) setting

end Parser
end Scriptlet
