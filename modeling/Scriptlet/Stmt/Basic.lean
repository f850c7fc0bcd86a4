import Scriptlet.Expr.Basic

/-! Statements. There is one loop; a counting loop is written with it. -/
namespace Scriptlet

inductive Stmt where
  | expr (e : Expr)
  | print (keyword : Token) (e : Expr)
  | declare (name : Token) (initial : Option Expr)
  | block (body : List Stmt)
  | branch (condition : Expr) (consequent alternate : List Stmt)
  | loop (condition : Expr) (body : Stmt)
  | leave (keyword : Token)

namespace Stmt

/-- The counting loop: the initial statement runs in a block around the loop, the increment after the
body of each round, and a missing condition is true. -/
def counting (initial : Option Stmt) (condition increment : Option Expr) (body : Stmt) : Stmt :=
  let round := match increment with
    | some e => .block [body, .expr e]
    | none => body
  .block (initial.toList ++ [.loop (condition.getD (.literal (.bool true))) round])

def elseText : List String → List String
  | [] => []
  | texts => [Expr.form "else" texts]

mutual

/-- The tree in full parentheses, its tag first. -/
def text : Stmt → String
  | .expr e => Expr.form "expr" [e.text]
  | .print _ e => Expr.form "print" [e.text]
  | .declare name none => Expr.form "let" [name.lexeme]
  | .declare name (some e) => Expr.form "let" [name.lexeme, e.text]
  | .block body => Expr.form "block" (texts body)
  | .branch condition consequent alternate =>
    Expr.form "if" ([condition.text, Expr.form "then" (texts consequent)] ++ elseText (texts alternate))
  | .loop condition body => Expr.form "while" [condition.text, body.text]
  | .leave _ => Expr.form "break" []

def texts : List Stmt → List String
  | [] => []
  | s :: rest => s.text :: texts rest

end

end Stmt
end Scriptlet
