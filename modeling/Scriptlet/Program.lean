import Scriptlet.Stmt.Parse
import Scriptlet.Token.Piece

/-! Whole programs. What is read ends at the first `finish` token; later tokens do not count. A line of a
conversation may also be one expression without a semicolon. -/
namespace Scriptlet

/-- How deep statements and expressions may nest. -/
def nestingLimit : Nat := 128

/-- A program with a gap for each statement that could not be read, or a lone expression. -/
inductive Parsed where
  | program (entries : List (Option Stmt))
  | expression (e : Expr)

structure Reading where
  parsed : Parsed
  reports : Reports

namespace Parser

def program : Parser (List (Option Stmt)) :=
  entries (entry (Rules.within nestingLimit) (statement nestingLimit)) .top

/-- The expression of an expression statement. -/
def bareExpression : Parser Expr :=
  (Rules.within (nestingLimit - 1)).expression

end Parser

namespace Reading

/-- The tokens that are read. -/
def content (tokens : List Token) : List Token :=
  tokens.takeWhile (·.kind != .finish)

/-- The token that a complaint about the end points at. -/
def closing (tokens : List Token) : Token :=
  (tokens.find? (·.kind == .finish)).getD (.finish .start)

def of (tokens : List Token) (parsed : Parsed) (complaints : List Complaint) : Reading :=
  ⟨parsed, complaints.map (·.report (closing tokens))⟩

end Reading

def parse (tokens : List Token) : Reading :=
  let step := Parser.program (Reading.content tokens)
  .of tokens (.program (step.value.getD [])) step.complaints

/-- The expression that makes up a whole line, if its first word opens no other statement. -/
def wholeExpression? (tokens : List Token) : Option (Expr × List Complaint) :=
  let content := Reading.content tokens
  if content.head?.any (·.kind ∈ Kind.opening) then none
  else
    match Parser.bareExpression content with
    | ⟨some e, [], complaints⟩ => some (e, complaints)
    | _ => none

def parseLine (tokens : List Token) : Reading :=
  match wholeExpression? tokens with
  | some (e, complaints) => .of tokens (.expression e) complaints
  | none => parse tokens

end Scriptlet
