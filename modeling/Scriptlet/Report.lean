import Scriptlet.Failure

/-! Reports to the user. A report says what kind of mistake was found, where, and what is wrong;
mistakes in the text and the grammar are found before anything runs, all others while running. -/
namespace Scriptlet

inductive ReportKind where
  | lexical
  | grammar
  | undefinedVariable
  | typeMismatch
  | divisionByZero
  | output
deriving DecidableEq, Repr

namespace ReportKind

def atRuntime : ReportKind → Bool
  | .lexical => false
  | .grammar => false
  | _ => true

def text : ReportKind → String
  | .lexical => "Lexical"
  | .grammar => "Syntax"
  | .undefinedVariable => "UndefinedVariable"
  | .typeMismatch => "TypeMismatch"
  | .divisionByZero => "DivisionByZero"
  | .output => "Output"

end ReportKind

def Fault.kind : Fault → ReportKind
  | .undefined _ => .undefinedVariable
  | .mismatch _ => .typeMismatch
  | .zeroDivision => .divisionByZero
  | .output _ => .output

@[simp] theorem Fault.atRuntime_kind (f : Fault) : f.kind.atRuntime = true := by
  cases f <;> rfl

/-- What a report points to: a bare place of the text, its end, or a lexeme. -/
inductive Location where
  | source
  | finish
  | lexeme (text : String)
deriving DecidableEq, Repr

namespace Location

def text : Location → String
  | .source => ""
  | .finish => " at end"
  | .lexeme l => " at '" ++ l ++ "'"

end Location

inductive LexicalFault where
  | unexpectedCharacter
  | unterminatedString
  | invalidNumber
deriving DecidableEq, Repr

namespace LexicalFault

def message : LexicalFault → String
  | .unexpectedCharacter => "Unexpected character."
  | .unterminatedString => "Unterminated string."
  | .invalidNumber => "Invalid number literal."

end LexicalFault

structure Report where
  kind : ReportKind
  location : Location
  pos : Position
  message : String
deriving DecidableEq, Repr

namespace Report

def lexical (pos : Position) (fault : LexicalFault) : Report :=
  ⟨.lexical, .source, pos, fault.message⟩

def grammar (token : Token) (message : String) : Report :=
  ⟨.grammar, if token.kind = .finish then .finish else .lexeme token.lexeme, token.pos, message⟩

def runtime (f : Failure) : Report :=
  ⟨f.fault.kind, .lexeme f.token.lexeme, f.token.pos, f.message⟩

def text (r : Report) : String :=
  if r.kind.atRuntime then r.message ++ "\n[line " ++ r.pos.text ++ "]"
  else "Error" ++ r.location.text ++ " (" ++ r.pos.text ++ "): " ++ r.message

end Report

/-- The reports of one call, in the order in which they were found. -/
abbrev Reports := List Report

namespace Reports

def anyAtRuntime (rs : Reports) : Bool :=
  rs.any (·.kind.atRuntime)

end Reports
end Scriptlet
