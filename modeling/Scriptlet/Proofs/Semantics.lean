import Mathlib.Algebra.Order.Field.Rat
import Mathlib.Data.Finmap
import Scriptlet.Session
import Scriptlet.Proofs.Proper

/-! What programs mean, without numbered scopes. Variables live in a stack of finite maps, the
innermost first; a body runs on a stack with one more map, which is gone when it ends, however it
ends. All is said by rules: an evaluation ends with a value or a failure, and a statement is done,
leaves a loop or fails. A program that runs forever has no derivation. Of the program the rules take
only the values, the trees and the sink, and of numbers what doubles are and how they are written. -/
namespace Scriptlet.Reference

open Float.Model (UnpackedFloat)

abbrev Frame := Finmap fun _ : String => Value

/-- The scopes that are open, the innermost first. -/
abbrev Stack := List Frame

namespace Stack

def lookup (name : String) : Stack → Option Value
  | [] => none
  | frame :: outer =>
    match frame.lookup name with
    | some v => some v
    | none => lookup name outer

/-- The stack after an assignment to the first frame that binds the name; none if there is none. -/
def assign (name : String) (v : Value) : Stack → Option Stack
  | [] => none
  | frame :: outer =>
    if name ∈ frame then some (frame.insert name v :: outer) else (assign name v outer).map
      (frame :: ·)

end Stack

abbrev Result := Except Failure Value

/-- All but `nil` and `false` count as true. -/
inductive Truthy : Value → Prop
  | bool : Truthy (.bool true)
  | number {x : Float} : Truthy (.number x)
  | string {s : String} : Truthy (.string s)

/-- Equal values are of one kind. Doubles are equal as numbers are, so the two zeros are, and what is not
a number is not equal to itself. -/
inductive Equal : Value → Value → Prop
  | nil : Equal .nil .nil
  | bool {b : Bool} : Equal (.bool b) (.bool b)
  | number {x y : Float} : x == y → Equal (.number x) (.number y)
  | string {s : String} : Equal (.string s) (.string s)

/-- The sign of a finite double, which zero has as well, and how far from zero it is. -/
inductive Measures (x : Float) : UnpackedFloat.Sign → ℚ → Prop
  | zero {sign : UnpackedFloat.Sign} : x.toModel.unpack = .zero sign → Measures x sign 0
  | finite {sign : UnpackedFloat.Sign} {m : Nat} {e : Int} {positive : 0 < m} :
      x.toModel.unpack = .finite sign m e positive → Measures x sign (m * 2 ^ e)

/-- What is left of a number when another was taken from it as often as it fits; it has the sign of the
first. Nothing infinite fits into a finite number. -/
inductive Remainder (x y : Float) : Float → Prop
  | exact {r : Float} {sign sign' : UnpackedFloat.Sign} {a b c : ℚ} {times : Nat} :
      Measures x sign a → Measures y sign' b → Measures r sign c → a = times * b + c → c < b →
      Remainder x y r
  | all : x.isFinite → y.isInf → Remainder x y x
  | undefined {r : Float} : x.isFinite = false ∨ y.isNaN ∨ (∃ sign, Measures y sign 0) → r.isNaN →
      Remainder x y r

inductive Unary (operator : Token) : Value → Result → Prop
  | negate {x : Float} : operator.kind = .minus → Unary operator (.number x) (.ok (.number (-x)))
  | mismatch {v : Value} : operator.kind = .minus → (∀ x, v ≠ .number x) →
      Unary operator v (.error (.needsNumber operator))
  | not {v : Value} {b : Bool} : operator.kind = .bang → (b ↔ ¬ Truthy v) →
      Unary operator v (.ok (.bool b))

inductive Numeric (operator : Token) (x y : Float) : Result → Prop
  | minus : operator.kind = .minus → Numeric operator x y (.ok (.number (x - y)))
  | times : operator.kind = .star → Numeric operator x y (.ok (.number (x * y)))
  | quotient : operator.kind = .slash → (x == 0.0) = false → (y == 0.0) = false →
      Numeric operator x y (.ok (.number (x / y)))
  | ofZero : operator.kind = .slash → x == 0.0 →
      Numeric operator x y (.error (.zeroDivision operator))
  | byZero : operator.kind = .slash → y == 0.0 →
      Numeric operator x y (.error (.zeroDivision operator))
  | remainder {r : Float} : operator.kind = .percent → Remainder x y r →
      Numeric operator x y (.ok (.number r))
  | greater : operator.kind = .greater → Numeric operator x y (.ok (.bool (y < x)))
  | greaterEqual : operator.kind = .greaterEqual → Numeric operator x y (.ok (.bool (y ≤ x)))
  | less : operator.kind = .less → Numeric operator x y (.ok (.bool (x < y)))
  | lessEqual : operator.kind = .lessEqual → Numeric operator x y (.ok (.bool (x ≤ y)))

def numericKinds : List Kind :=
  [.minus, .star, .slash, .percent, .greater, .greaterEqual, .less, .lessEqual]

inductive Binary (operator : Token) : Value → Value → Result → Prop
  | equal {v w : Value} {b : Bool} : operator.kind = .equalEqual → (b ↔ Equal v w) →
      Binary operator v w (.ok (.bool b))
  | unequal {v w : Value} {b : Bool} : operator.kind = .bangEqual → (b ↔ ¬ Equal v w) →
      Binary operator v w (.ok (.bool b))
  | plus {x y : Float} : operator.kind = .plus →
      Binary operator (.number x) (.number y) (.ok (.number (x + y)))
  | concatenate {s t : String} : operator.kind = .plus →
      Binary operator (.string s) (.string t) (.ok (.string (s ++ t)))
  | plusMismatch {v w : Value} : operator.kind = .plus →
      (∀ x y, ¬ (v = .number x ∧ w = .number y)) → (∀ s t, ¬ (v = .string s ∧ w = .string t)) →
      Binary operator v w (.error (.needsNumbersOrStrings operator))
  | numeric {x y : Float} {r : Result} : Numeric operator x y r →
      Binary operator (.number x) (.number y) r
  | mismatch {v w : Value} : operator.kind ∈ numericKinds →
      (∀ x y, ¬ (v = .number x ∧ w = .number y)) →
      Binary operator v w (.error (.needsNumbers operator))

/-- Whether a value is the result of `or` or `and` already. -/
def Decides (operator : Token) (v : Value) : Prop :=
  (operator.kind = .orWord ∧ Truthy v) ∨ (operator.kind = .andWord ∧ ¬ Truthy v)

inductive Stepped (operator : Token) (x : Float) : Float → Prop
  | up : operator.kind = .plusPlus → Stepped operator x (x + 1.0)
  | down : operator.kind = .minusMinus → Stepped operator x (x - 1.0)

/-- An evaluation from one stack to another. Operands go from left to right, and the first failure
ends it. -/
inductive Eval : Stack → Expr → Result → Stack → Prop
  | literal {σ : Stack} {v : Value} : Eval σ (.literal v) (.ok v) σ
  | var {σ : Stack} {name : Token} {v : Value} : σ.lookup name.lexeme = some v →
      Eval σ (.var name) (.ok v) σ
  | unbound {σ : Stack} {name : Token} : σ.lookup name.lexeme = none →
      Eval σ (.var name) (.error (.undefined name)) σ
  | assign {σ σ' σ'' : Stack} {name : Token} {e : Expr} {v : Value} : Eval σ e (.ok v) σ' →
      σ'.assign name.lexeme v = some σ'' → Eval σ (.assign name e) (.ok v) σ''
  | assignUnbound {σ σ' : Stack} {name : Token} {e : Expr} {v : Value} : Eval σ e (.ok v) σ' →
      σ'.assign name.lexeme v = none → Eval σ (.assign name e) (.error (.undefined name)) σ'
  | assignFails {σ σ' : Stack} {name : Token} {e : Expr} {f : Failure} : Eval σ e (.error f) σ' →
      Eval σ (.assign name e) (.error f) σ'
  | group {σ σ' : Stack} {e : Expr} {r : Result} : Eval σ e r σ' → Eval σ (.group e) r σ'
  | unary {σ σ' : Stack} {operator : Token} {e : Expr} {v : Value} {r : Result} :
      Eval σ e (.ok v) σ' → Unary operator v r → Eval σ (.unary operator e) r σ'
  | unaryFails {σ σ' : Stack} {operator : Token} {e : Expr} {f : Failure} :
      Eval σ e (.error f) σ' → Eval σ (.unary operator e) (.error f) σ'
  | binary {σ σ' σ'' : Stack} {operator : Token} {e d : Expr} {v w : Value} {r : Result} :
      Eval σ e (.ok v) σ' → Eval σ' d (.ok w) σ'' → Binary operator v w r →
      Eval σ (.binary e operator d) r σ''
  | binaryLeftFails {σ σ' : Stack} {operator : Token} {e d : Expr} {f : Failure} :
      Eval σ e (.error f) σ' → Eval σ (.binary e operator d) (.error f) σ'
  | binaryRightFails {σ σ' σ'' : Stack} {operator : Token} {e d : Expr} {v : Value} {f : Failure} :
      Eval σ e (.ok v) σ' → Eval σ' d (.error f) σ'' → Eval σ (.binary e operator d) (.error f) σ''
  | decided {σ σ' : Stack} {operator : Token} {e d : Expr} {v : Value} :
      Eval σ e (.ok v) σ' → Decides operator v → Eval σ (.logical e operator d) (.ok v) σ'
  | undecided {σ σ' σ'' : Stack} {operator : Token} {e d : Expr} {v : Value} {r : Result} :
      Eval σ e (.ok v) σ' → ¬ Decides operator v → Eval σ' d r σ'' →
      Eval σ (.logical e operator d) r σ''
  | logicalFails {σ σ' : Stack} {operator : Token} {e d : Expr} {f : Failure} :
      Eval σ e (.error f) σ' → Eval σ (.logical e operator d) (.error f) σ'
  | choiceSecond {σ σ₁ σ₂ σ₃ : Stack} {c t e : Expr} {u v w : Value} : Eval σ c (.ok u) σ₁ →
      Eval σ₁ t (.ok v) σ₂ → Eval σ₂ e (.ok w) σ₃ → Truthy u → Eval σ (.choice c t e) (.ok v) σ₃
  | choiceThird {σ σ₁ σ₂ σ₃ : Stack} {c t e : Expr} {u v w : Value} : Eval σ c (.ok u) σ₁ →
      Eval σ₁ t (.ok v) σ₂ → Eval σ₂ e (.ok w) σ₃ → ¬ Truthy u → Eval σ (.choice c t e) (.ok w) σ₃
  | choiceFirstFails {σ σ₁ : Stack} {c t e : Expr} {f : Failure} : Eval σ c (.error f) σ₁ →
      Eval σ (.choice c t e) (.error f) σ₁
  | choiceSecondFails {σ σ₁ σ₂ : Stack} {c t e : Expr} {u : Value} {f : Failure} :
      Eval σ c (.ok u) σ₁ → Eval σ₁ t (.error f) σ₂ → Eval σ (.choice c t e) (.error f) σ₂
  | choiceThirdFails {σ σ₁ σ₂ σ₃ : Stack} {c t e : Expr} {u v : Value} {f : Failure} :
      Eval σ c (.ok u) σ₁ → Eval σ₁ t (.ok v) σ₂ → Eval σ₂ e (.error f) σ₃ →
      Eval σ (.choice c t e) (.error f) σ₃
  | stepName {σ σ' : Stack} {operator name : Token} {x y : Float} :
      σ.lookup name.lexeme = some (.number x) → Stepped operator x y →
      σ.assign name.lexeme (.number y) = some σ' →
      Eval σ (.step (.var name) operator) (.ok (.number x)) σ'
  | stepOther {σ σ' : Stack} {operator : Token} {e : Expr} {x : Float} : (∀ name, e ≠ .var name) →
      Eval σ e (.ok (.number x)) σ' → Eval σ (.step e operator) (.ok (.number x)) σ'
  | stepMismatch {σ σ' : Stack} {operator : Token} {e : Expr} {v : Value} : Eval σ e (.ok v) σ' →
      (∀ x, v ≠ .number x) → Eval σ (.step e operator) (.error (.needsNumber operator)) σ'
  | stepFails {σ σ' : Stack} {operator : Token} {e : Expr} {f : Failure} : Eval σ e (.error f) σ' →
      Eval σ (.step e operator) (.error f) σ'

structure World where
  stack : Stack
  sink : Sink

inductive Ending where
  | done
  | broke
  | failed (f : Failure)

inductive Code where
  | one (s : Stmt)
  | all (body : List Stmt)

def text : Value → String
  | .nil => "nil"
  | .bool b => if b then "true" else "false"
  | .number x => Number.text "Infinity" x
  | .string s => s

def line (v : Value) : ByteArray :=
  (text v ++ "\n").toUTF8

/-- A run from one world to another. A body runs on one more frame, which is dropped at its end
whether it is done, breaks off or fails. -/
inductive Runs : World → Code → Ending → World → Prop
  | expr {σ σ' : Stack} {sink : Sink} {e : Expr} {v : Value} : Eval σ e (.ok v) σ' →
      Runs ⟨σ, sink⟩ (.one (.expr e)) .done ⟨σ', sink⟩
  | exprFails {σ σ' : Stack} {sink : Sink} {e : Expr} {f : Failure} : Eval σ e (.error f) σ' →
      Runs ⟨σ, sink⟩ (.one (.expr e)) (.failed f) ⟨σ', sink⟩
  | print {σ σ' : Stack} {sink : Sink} {keyword : Token} {e : Expr} {v : Value} :
      Eval σ e (.ok v) σ' → sink.fits (line v) →
      Runs ⟨σ, sink⟩ (.one (.print keyword e)) .done ⟨σ', sink.write (line v)⟩
  | printFull {σ σ' : Stack} {sink : Sink} {keyword : Token} {e : Expr} {v : Value} :
      Eval σ e (.ok v) σ' → sink.fits (line v) = false →
      Runs ⟨σ, sink⟩ (.one (.print keyword e)) (.failed ⟨keyword, .output "sink full"⟩)
        ⟨σ', sink.write (line v)⟩
  | printFails {σ σ' : Stack} {sink : Sink} {keyword : Token} {e : Expr} {f : Failure} :
      Eval σ e (.error f) σ' →
      Runs ⟨σ, sink⟩ (.one (.print keyword e)) (.failed f) ⟨σ', sink⟩
  | declareNil {frame : Frame} {σ : Stack} {sink : Sink} {name : Token} :
      Runs ⟨frame :: σ, sink⟩ (.one (.declare name none)) .done
        ⟨frame.insert name.lexeme .nil :: σ, sink⟩
  | declare {frame : Frame} {σ σ' : Stack} {sink : Sink} {name : Token} {e : Expr} {v : Value} :
      Eval σ e (.ok v) (frame :: σ') →
      Runs ⟨σ, sink⟩ (.one (.declare name (some e))) .done
        ⟨frame.insert name.lexeme v :: σ', sink⟩
  | declareFails {σ σ' : Stack} {sink : Sink} {name : Token} {e : Expr} {f : Failure} :
      Eval σ e (.error f) σ' →
      Runs ⟨σ, sink⟩ (.one (.declare name (some e))) (.failed f) ⟨σ', sink⟩
  | block {frame : Frame} {σ σ' : Stack} {sink sink' : Sink} {body : List Stmt} {ending : Ending} :
      Runs ⟨∅ :: σ, sink⟩ (.all body) ending ⟨frame :: σ', sink'⟩ →
      Runs ⟨σ, sink⟩ (.one (.block body)) ending ⟨σ', sink'⟩
  | consequent {frame : Frame} {σ σ' σ'' : Stack} {sink sink' : Sink} {c : Expr} {v : Value}
      {consequent alternate : List Stmt} {ending : Ending} : Eval σ c (.ok v) σ' → Truthy v →
      Runs ⟨∅ :: σ', sink⟩ (.all consequent) ending ⟨frame :: σ'', sink'⟩ →
      Runs ⟨σ, sink⟩ (.one (.branch c consequent alternate)) ending ⟨σ'', sink'⟩
  | alternate {frame : Frame} {σ σ' σ'' : Stack} {sink sink' : Sink} {c : Expr} {v : Value}
      {consequent alternate : List Stmt} {ending : Ending} : Eval σ c (.ok v) σ' → ¬ Truthy v →
      Runs ⟨∅ :: σ', sink⟩ (.all alternate) ending ⟨frame :: σ'', sink'⟩ →
      Runs ⟨σ, sink⟩ (.one (.branch c consequent alternate)) ending ⟨σ'', sink'⟩
  | branchFails {σ σ' : Stack} {sink : Sink} {c : Expr} {consequent alternate : List Stmt}
      {f : Failure} : Eval σ c (.error f) σ' →
      Runs ⟨σ, sink⟩ (.one (.branch c consequent alternate)) (.failed f) ⟨σ', sink⟩
  | loopEnds {σ σ' : Stack} {sink : Sink} {c : Expr} {body : Stmt} {v : Value} :
      Eval σ c (.ok v) σ' → ¬ Truthy v →
      Runs ⟨σ, sink⟩ (.one (.loop c body)) .done ⟨σ', sink⟩
  | loopFails {σ σ' : Stack} {sink : Sink} {c : Expr} {body : Stmt} {f : Failure} :
      Eval σ c (.error f) σ' → Runs ⟨σ, sink⟩ (.one (.loop c body)) (.failed f) ⟨σ', sink⟩
  | loopBroken {frame : Frame} {σ σ' σ'' : Stack} {sink sink' : Sink} {c : Expr} {body : Stmt}
      {v : Value} : Eval σ c (.ok v) σ' → Truthy v →
      Runs ⟨∅ :: σ', sink⟩ (.one body) .broke ⟨frame :: σ'', sink'⟩ →
      Runs ⟨σ, sink⟩ (.one (.loop c body)) .done ⟨σ'', sink'⟩
  | loopBodyFails {frame : Frame} {σ σ' σ'' : Stack} {sink sink' : Sink} {c : Expr} {body : Stmt}
      {v : Value} {f : Failure} : Eval σ c (.ok v) σ' → Truthy v →
      Runs ⟨∅ :: σ', sink⟩ (.one body) (.failed f) ⟨frame :: σ'', sink'⟩ →
      Runs ⟨σ, sink⟩ (.one (.loop c body)) (.failed f) ⟨σ'', sink'⟩
  | loopAgain {frame : Frame} {σ σ' σ'' : Stack} {sink sink' : Sink} {c : Expr} {body : Stmt}
      {v : Value} {ending : Ending} {w : World} : Eval σ c (.ok v) σ' → Truthy v →
      Runs ⟨∅ :: σ', sink⟩ (.one body) .done ⟨frame :: σ'', sink'⟩ →
      Runs ⟨σ'', sink'⟩ (.one (.loop c body)) ending w →
      Runs ⟨σ, sink⟩ (.one (.loop c body)) ending w
  | leave {w : World} {keyword : Token} : Runs w (.one (.leave keyword)) .broke w
  | nil {w : World} : Runs w (.all []) .done w
  | cons {w w' w'' : World} {s : Stmt} {rest : List Stmt} {ending : Ending} :
      Runs w (.one s) .done w' → Runs w' (.all rest) ending w'' →
      Runs w (.all (s :: rest)) ending w''
  | consBroke {w w' : World} {s : Stmt} {rest : List Stmt} : Runs w (.one s) .broke w' →
      Runs w (.all (s :: rest)) .broke w'
  | consFails {w w' : World} {s : Stmt} {rest : List Stmt} {f : Failure} :
      Runs w (.one s) (.failed f) w' → Runs w (.all (s :: rest)) (.failed f) w'

end Scriptlet.Reference
