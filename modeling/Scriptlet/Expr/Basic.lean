import Scriptlet.Token.Basic

/-! Expressions. Operators and names stay tokens, so that a failure can point at them. -/
namespace Scriptlet

inductive Expr where
  | literal (value : Value)
  | var (name : Token)
  | assign (name : Token) (value : Expr)
  | group (inner : Expr)
  | unary (operator : Token) (right : Expr)
  | binary (left : Expr) (operator : Token) (right : Expr)
  | logical (left : Expr) (operator : Token) (right : Expr)
  | choice (condition consequent alternate : Expr)
  | step (operand : Expr) (operator : Token)
deriving DecidableEq

namespace Expr

/-- An operator or tag in front of its operands, in parentheses. -/
def form (head : String) (operands : List String) : String :=
  "(" ++ head ++ String.join (operands.map (" " ++ ·)) ++ ")"

def literalText : Value → String
  | .string s => "\"" ++ s ++ "\""
  | v => v.listing

/-- The tree in full parentheses, operators first. -/
def text : Expr → String
  | .literal v => literalText v
  | .var name => name.lexeme
  | .assign name value => form "=" [name.lexeme, value.text]
  | .group inner => form "group" [inner.text]
  | .unary operator right => form operator.lexeme [right.text]
  | .binary left operator right => form operator.lexeme [left.text, right.text]
  | .logical left operator right => form operator.lexeme [left.text, right.text]
  | .choice condition consequent alternate =>
    form "?" [condition.text, consequent.text, alternate.text]
  | .step operand operator => form operator.lexeme [operand.text]

end Expr
end Scriptlet
