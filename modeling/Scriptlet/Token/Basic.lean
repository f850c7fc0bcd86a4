import Scriptlet.Value

/-! Tokens: a kind, the text it was read from, the value of a literal, and where the text starts. Places
are counted from line one and column one; a line ends with its newline, and every other character is one
column wide. -/
namespace Scriptlet

structure Position where
  line : Nat
  column : Nat
deriving DecidableEq, Repr

namespace Position

def start : Position := ⟨1, 1⟩

/-- The place right after a character that stands at `p`. -/
def next (p : Position) (c : Char) : Position :=
  if c = '\n' then ⟨p.line + 1, 1⟩ else ⟨p.line, p.column + 1⟩

/-- The place right after a text that starts at `p`. -/
def after (p : Position) (text : List Char) : Position :=
  text.foldl next p

@[simp] theorem after_nil (p : Position) : p.after [] = p := rfl

@[simp] theorem after_cons (p : Position) (c : Char) (text : List Char) :
    p.after (c :: text) = (p.next c).after text := rfl

@[simp] theorem after_append (p : Position) (s t : List Char) :
    p.after (s ++ t) = (p.after s).after t := by
  simp [after]

/-- As written in reports. -/
def text (p : Position) : String :=
  toString p.line ++ ":" ++ toString p.column

end Position

inductive Kind where
  | leftParen | rightParen | leftBrace | rightBrace | comma | dot | semicolon | question | colon
  | bang | bangEqual | equal | equalEqual | greater | greaterEqual | less | lessEqual
  | plus | plusEqual | plusPlus | minus | minusEqual | minusMinus
  | star | starEqual | slash | slashEqual | percent | percentEqual
  | name | string | number
  | andWord | breakWord | classWord | defWord | doWord | elseWord | endWord | falseWord | forWord
  | ifWord | lambdaWord | letWord | matchWord | nilWord | orWord | printWord | returnWord | selfWord
  | superWord | thenWord | trueWord | whileWord
  | finish
deriving DecidableEq, Repr

namespace Kind

/-- The reserved words. Every other word is a name. -/
def reserved : List (String × Kind) :=
  [("and", .andWord), ("break", .breakWord), ("class", .classWord), ("def", .defWord),
    ("do", .doWord), ("else", .elseWord), ("end", .endWord), ("false", .falseWord),
    ("for", .forWord), ("if", .ifWord), ("lambda", .lambdaWord), ("let", .letWord),
    ("match", .matchWord), ("nil", .nilWord), ("or", .orWord), ("print", .printWord),
    ("return", .returnWord), ("self", .selfWord), ("super", .superWord), ("then", .thenWord),
    ("true", .trueWord), ("while", .whileWord)]

def ofWord (word : String) : Kind :=
  (reserved.lookup word).getD .name

def ofPair : Char → Char → Option Kind
  | '-', '-' => some .minusMinus
  | '-', '=' => some .minusEqual
  | '+', '+' => some .plusPlus
  | '+', '=' => some .plusEqual
  | '*', '=' => some .starEqual
  | '/', '=' => some .slashEqual
  | '%', '=' => some .percentEqual
  | '!', '=' => some .bangEqual
  | '=', '=' => some .equalEqual
  | '<', '=' => some .lessEqual
  | '>', '=' => some .greaterEqual
  | _, _ => none

def ofChar : Char → Option Kind
  | '(' => some .leftParen
  | ')' => some .rightParen
  | '\x7b' => some .leftBrace
  | '\x7d' => some .rightBrace
  | ',' => some .comma
  | '.' => some .dot
  | ';' => some .semicolon
  | '?' => some .question
  | ':' => some .colon
  | '-' => some .minus
  | '+' => some .plus
  | '*' => some .star
  | '/' => some .slash
  | '%' => some .percent
  | '!' => some .bang
  | '=' => some .equal
  | '<' => some .less
  | '>' => some .greater
  | _ => none

/-- As written in listings. -/
def text : Kind → String
  | .leftParen => "LeftParen"
  | .rightParen => "RightParen"
  | .leftBrace => "LeftBrace"
  | .rightBrace => "RightBrace"
  | .comma => "Comma"
  | .dot => "Dot"
  | .semicolon => "Semicolon"
  | .question => "QuestionMark"
  | .colon => "Colon"
  | .bang => "Bang"
  | .bangEqual => "BangEqual"
  | .equal => "Equal"
  | .equalEqual => "EqualEqual"
  | .greater => "Greater"
  | .greaterEqual => "GreaterEqual"
  | .less => "Less"
  | .lessEqual => "LessEqual"
  | .plus => "Plus"
  | .plusEqual => "PlusEqual"
  | .plusPlus => "PlusPlus"
  | .minus => "Minus"
  | .minusEqual => "MinusEqual"
  | .minusMinus => "MinusMinus"
  | .star => "Star"
  | .starEqual => "StarEqual"
  | .slash => "Slash"
  | .slashEqual => "SlashEqual"
  | .percent => "Percent"
  | .percentEqual => "PercentEqual"
  | .name => "Identifier"
  | .string => "String"
  | .number => "Number"
  | .andWord => "And"
  | .breakWord => "Break"
  | .classWord => "Class"
  | .defWord => "Def"
  | .doWord => "Do"
  | .elseWord => "Else"
  | .endWord => "End"
  | .falseWord => "False"
  | .forWord => "For"
  | .ifWord => "If"
  | .lambdaWord => "Lambda"
  | .letWord => "Let"
  | .matchWord => "Match"
  | .nilWord => "Nil"
  | .orWord => "Or"
  | .printWord => "Print"
  | .returnWord => "Return"
  | .selfWord => "SelfKw"
  | .superWord => "Super"
  | .thenWord => "Then"
  | .trueWord => "True"
  | .whileWord => "While"
  | .finish => "Eof"

end Kind

structure Token where
  kind : Kind
  lexeme : String
  literal : Option Value
  pos : Position
deriving DecidableEq

namespace Token

/-- The token that closes every scanned text. -/
def finish (pos : Position) : Token :=
  ⟨.finish, "", none, pos⟩

/-- As written in listings: kind, lexeme and, where there is one, literal. -/
def text (t : Token) : String :=
  match t.literal with
  | some v => t.kind.text ++ " " ++ t.lexeme ++ " " ++ v.listing
  | none => t.kind.text ++ " " ++ t.lexeme

end Token
end Scriptlet
