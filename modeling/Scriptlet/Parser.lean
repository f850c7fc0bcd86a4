import Scriptlet.Report

/-! Reading a list of tokens from the left. A reading step gives a value or fails, leaves the tokens it
did not take, and collects complaints; a failure is complained about where it arises. -/
namespace Scriptlet

/-- What the grammar can miss at a token. -/
inductive Mistake where
  | nesting
  | expression
  | closingParen
  | choiceColon
  | target
  | variableName
  | declarationEnd
  | printEnd
  | expressionEnd
  | blockEnd
  | branchThen
  | branchEnd
  | forParen
  | forCondition
  | forClauses
  | strayBreak
  | breakEnd
deriving DecidableEq, Repr

namespace Mistake

def message : Mistake → String
  | .nesting => "Too much nesting."
  | .expression => "Expect expression."
  | .closingParen => "Expect ')' after expression."
  | .choiceColon => "Expect ':' after expression."
  | .target => "Invalid assignment target."
  | .variableName => "Expect variable name."
  | .declarationEnd => "Expect ';' after variable declaration."
  | .printEnd => "Expect ';' after value."
  | .expressionEnd => "Expect ';' after expression."
  | .blockEnd => "Expect 'end' after block."
  | .branchThen => "Expect 'then' after if condition."
  | .branchEnd => "Expect 'end' after if statement."
  | .forParen => "Expect '(' after 'for'."
  | .forCondition => "Expect ';' after loop condition."
  | .forClauses => "Expect ')' after for clauses."
  | .strayBreak => "Must be inside a loop to use 'break'."
  | .breakEnd => "Expect ';' after 'break'."

end Mistake

/-- A mistake at a token, or at the end of the text where there is none. -/
structure Complaint where
  token? : Option Token
  mistake : Mistake
deriving DecidableEq

namespace Complaint

def report (finish : Token) (c : Complaint) : Report :=
  .grammar (c.token?.getD finish) c.mistake.message

end Complaint

structure Step (α : Type) where
  value : Option α
  rest : List Token
  complaints : List Complaint

def Parser (α : Type) : Type :=
  List Token → Step α

namespace Parser

protected def pure {α : Type} (a : α) : Parser α :=
  fun ts => ⟨some a, ts, []⟩

protected def bind {α β : Type} (p : Parser α) (f : α → Parser β) : Parser β :=
  fun ts =>
    match p ts with
    | ⟨none, rest, complaints⟩ => ⟨none, rest, complaints⟩
    | ⟨some a, rest, complaints⟩ =>
      let next := f a rest
      ⟨next.value, next.rest, complaints ++ next.complaints⟩

instance : Monad Parser where
  pure := Parser.pure
  bind := Parser.bind

theorem pure_apply {α : Type} (a : α) (ts : List Token) :
    (pure a : Parser α) ts = ⟨some a, ts, []⟩ := rfl

theorem bind_of_some {α β : Type} {p : Parser α} (f : α → Parser β) {ts rest : List Token} {a : α}
    {complaints : List Complaint} (read : p ts = ⟨some a, rest, complaints⟩) :
    (p >>= f) ts =
      ⟨(f a rest).value, (f a rest).rest, complaints ++ (f a rest).complaints⟩ := by
  simp only [bind, Parser.bind, read]

theorem bind_of_none {α β : Type} {p : Parser α} (f : α → Parser β) {ts rest : List Token}
    {complaints : List Complaint} (failed : p ts = ⟨none, rest, complaints⟩) :
    (p >>= f) ts = ⟨none, rest, complaints⟩ := by
  simp only [bind, Parser.bind, failed]

/-- Fails with a complaint about the next token. -/
def fail {α : Type} (m : Mistake) : Parser α :=
  fun ts => ⟨none, ts, [⟨ts.head?, m⟩]⟩

/-- Complains about a token and goes on. -/
def complain (t : Token) (m : Mistake) : Parser Unit :=
  fun ts => ⟨some (), ts, [⟨some t, m⟩]⟩

def next? : Parser (Option Token) :=
  fun ts => ⟨some ts.head?, ts, []⟩

def remaining : Parser Nat :=
  fun ts => ⟨some ts.length, ts, []⟩

/-- Takes the next token if it is of one of these kinds. -/
def accept (kinds : List Kind) : Parser (Option Token)
  | [] => ⟨some none, [], []⟩
  | t :: ts => if t.kind ∈ kinds then ⟨some (some t), ts, []⟩ else ⟨some none, t :: ts, []⟩

/-- Takes the next token, which has to be of this kind. -/
def expect (kind : Kind) (m : Mistake) : Parser Token := do
  match ← accept [kind] with
  | some t => return t
  | none => fail m

/-- Turns a failure into a gap, after which reading goes on where `resume` says. -/
def recover {α : Type} (resume : List Token → List Token) (p : Parser α) : Parser (Option α) :=
  fun ts =>
    match p ts with
    | ⟨some a, rest, complaints⟩ => ⟨some (some a), rest, complaints⟩
    | ⟨none, rest, complaints⟩ => ⟨some none, resume rest, complaints⟩

end Parser
end Scriptlet
