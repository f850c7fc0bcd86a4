import Scriptlet.Token.Basic

/-! Why the run of a program stops with a report. A failure blames one token: the name that is not
bound, the operator whose operands do not fit, or the word `print`. -/
namespace Scriptlet

inductive Fault where
  | undefined (name : String)
  | mismatch (rule : String)
  | zeroDivision
  | output (reason : String)
deriving DecidableEq

namespace Fault

def message : Fault → String
  | .undefined name => "Undefined variable '" ++ name ++ "'."
  | .mismatch rule => rule
  | .zeroDivision => "Division by zero is not possible."
  | .output reason => "Failed to write output: " ++ reason

end Fault

structure Failure where
  token : Token
  fault : Fault
deriving DecidableEq

namespace Failure

def undefined (name : Token) : Failure :=
  ⟨name, .undefined name.lexeme⟩

def needsNumber (operator : Token) : Failure :=
  ⟨operator, .mismatch "Operand must be a number."⟩

def needsNumbers (operator : Token) : Failure :=
  ⟨operator, .mismatch "Operands must be numbers."⟩

def needsNumbersOrStrings (operator : Token) : Failure :=
  ⟨operator, .mismatch "Operands must be numbers or strings."⟩

def zeroDivision (operator : Token) : Failure :=
  ⟨operator, .zeroDivision⟩

def message (f : Failure) : String :=
  f.fault.message

end Failure
end Scriptlet
