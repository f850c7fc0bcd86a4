import Scriptlet.Stmt.Basic

/-! The grammar of the language, as a relation between lists of tokens and trees. Nothing here looks
ahead: a rule says only which lists stand side by side. The number in front of a derivation bounds
how deep it nests; a statement, an expression, the operand of a sign and the alternate of a choice
each go one level deeper. -/
namespace Scriptlet.Grammar

/-- The rules for expressions, from the loosest to the tightest. -/
inductive Level where
  | expression
  | assignment
  | choice
  | disjunction
  | conjunction
  | equality
  | order
  | sum
  | product
  | signed
  | stepped
  | primary
deriving DecidableEq

namespace Level

/-- The rule whose expressions a rule takes as they are. An expression is an assignment one level
deeper, so it is not among these. -/
def tighter : Level → Option Level
  | .expression => none
  | .assignment => some .choice
  | .choice => some .disjunction
  | .disjunction => some .conjunction
  | .conjunction => some .equality
  | .equality => some .order
  | .order => some .sum
  | .sum => some .product
  | .product => some .signed
  | .signed => some .stepped
  | .stepped => some .primary
  | .primary => none

def operators : Level → List Kind
  | .disjunction => [.orWord]
  | .conjunction => [.andWord]
  | .equality => [.bangEqual, .equalEqual]
  | .order => [.greater, .greaterEqual, .less, .lessEqual]
  | .sum => [.minus, .plus]
  | .product => [.star, .slash, .percent]
  | _ => []

def join : Level → Expr → Token → Expr → Expr
  | .disjunction => .logical
  | .conjunction => .logical
  | _ => .binary

end Level

/-- Tokens that are expressions by themselves. A number or a string has to carry its value. -/
inductive Atom : Token → Expr → Prop
  | no {t : Token} : t.kind = .falseWord → Atom t (.literal (.bool false))
  | yes {t : Token} : t.kind = .trueWord → Atom t (.literal (.bool true))
  | nil {t : Token} : t.kind = .nilWord → Atom t (.literal .nil)
  | number {t : Token} {x : Float} : t.kind = .number → t.literal = some (.number x) →
      Atom t (.literal (.number x))
  | string {t : Token} {s : String} : t.kind = .string → t.literal = some (.string s) →
      Atom t (.literal (.string s))
  | name {t : Token} : t.kind = .name → Atom t (.var t)

def compounds : List (Kind × Kind × String) :=
  [(.plusEqual, .plus, "+"), (.minusEqual, .minus, "-"), (.starEqual, .star, "*"),
    (.slashEqual, .slash, "/"), (.percentEqual, .percent, "%")]

def signs : List Kind := [.minus, .bang]

def steps : List Kind := [.minusMinus, .plusPlus]

/-- The tokens are an expression of the level, with this tree. -/
inductive Derives : Nat → Level → List Token → Expr → Prop
  | deeper {n : Nat} {ts : List Token} {e : Expr} :
      Derives n .assignment ts e → Derives (n + 1) .expression ts e
  | plain {n : Nat} {l m : Level} {ts : List Token} {e : Expr} :
      l.tighter = some m → Derives n m ts e → Derives n l ts e
  | assign {n : Nat} {name equal : Token} {ts : List Token} {value : Expr} :
      name.kind = .name → equal.kind = .equal → Derives n .expression ts value →
      Derives n .assignment (name :: equal :: ts) (.assign name value)
  | update {n : Nat} {name operator : Token} {kind : Kind} {text : String} {ts : List Token}
      {value : Expr} :
      name.kind = .name → (operator.kind, kind, text) ∈ compounds → Derives n .expression ts value →
      Derives n .assignment (name :: operator :: ts)
        (.assign name (.binary (.var name) ⟨kind, text, none, operator.pos⟩ value))
  | choice {n : Nat} {question colon : Token} {cs ts es : List Token} {c t e : Expr} :
      Derives (n + 1) .disjunction cs c → question.kind = .question →
      Derives (n + 1) .disjunction ts t → colon.kind = .colon → Derives n .choice es e →
      Derives (n + 1) .choice (cs ++ question :: ts ++ colon :: es) (.choice c t e)
  | joined {n : Nat} {l m : Level} {operator : Token} {xs ys : List Token} {left right : Expr} :
      l.tighter = some m → Derives n l xs left → operator.kind ∈ l.operators →
      Derives n m ys right → Derives n l (xs ++ operator :: ys) (l.join left operator right)
  | sign {n : Nat} {operator : Token} {ts : List Token} {right : Expr} :
      operator.kind ∈ signs → Derives n .signed ts right →
      Derives (n + 1) .signed (operator :: ts) (.unary operator right)
  | step {n : Nat} {operator : Token} {ts : List Token} {operand : Expr} :
      Derives n .primary ts operand → operator.kind ∈ steps →
      Derives n .stepped (ts ++ [operator]) (.step operand operator)
  | group {n : Nat} {opening closing : Token} {ts : List Token} {e : Expr} :
      opening.kind = .leftParen → Derives n .expression ts e → closing.kind = .rightParen →
      Derives n .primary (opening :: ts ++ [closing]) (.group e)
  | atom {n : Nat} {t : Token} {e : Expr} : Atom t e → Derives n .primary [t] e

inductive Variable (n : Nat) : List Token → Stmt → Prop
  | bare {letWord name semicolon : Token} : letWord.kind = .letWord → name.kind = .name →
      semicolon.kind = .semicolon → Variable n [letWord, name, semicolon] (.declare name none)
  | initial {letWord name equal semicolon : Token} {ts : List Token} {e : Expr} :
      letWord.kind = .letWord → name.kind = .name → equal.kind = .equal →
      Derives n .expression ts e → semicolon.kind = .semicolon →
      Variable n (letWord :: name :: equal :: ts ++ [semicolon]) (.declare name (some e))

inductive Initial (n : Nat) : List Token → Option Stmt → Prop
  | none {semicolon : Token} : semicolon.kind = .semicolon → Initial n [semicolon] none
  | declare {ts : List Token} {s : Stmt} : Variable n ts s → Initial n ts (some s)
  | expr {semicolon : Token} {ts : List Token} {e : Expr} : Derives n .expression ts e →
      semicolon.kind = .semicolon → Initial n (ts ++ [semicolon]) (some (.expr e))

inductive Condition (n : Nat) : List Token → Expr → Prop
  | always : Condition n [] (.literal (.bool true))
  | expr {ts : List Token} {e : Expr} : Derives n .expression ts e → Condition n ts e

mutual

/-- The tokens are a statement; the flag says whether it stands inside a loop. -/
inductive Statement : Nat → Bool → List Token → Stmt → Prop
  | expr {n : Nat} {inLoop : Bool} {semicolon : Token} {ts : List Token} {e : Expr} :
      Derives n .expression ts e → semicolon.kind = .semicolon →
      Statement (n + 1) inLoop (ts ++ [semicolon]) (.expr e)
  | print {n : Nat} {inLoop : Bool} {keyword semicolon : Token} {ts : List Token} {e : Expr} :
      keyword.kind = .printWord → Derives n .expression ts e → semicolon.kind = .semicolon →
      Statement (n + 1) inLoop (keyword :: ts ++ [semicolon]) (.print keyword e)
  | block {n : Nat} {inLoop : Bool} {doWord endWord : Token} {ts : List Token} {body : List Stmt} :
      doWord.kind = .doWord → Body n inLoop ts body → endWord.kind = .endWord →
      Statement (n + 1) inLoop (doWord :: ts ++ [endWord]) (.block body)
  | branch {n : Nat} {inLoop : Bool} {ifWord thenWord endWord : Token} {cs ts : List Token}
      {c : Expr} {consequent : List Stmt} :
      ifWord.kind = .ifWord → Derives n .expression cs c → thenWord.kind = .thenWord →
      Body n inLoop ts consequent → endWord.kind = .endWord →
      Statement (n + 1) inLoop (ifWord :: cs ++ thenWord :: ts ++ [endWord])
        (.branch c consequent [])
  | branchElse {n : Nat} {inLoop : Bool} {ifWord thenWord elseWord endWord : Token}
      {cs ts es : List Token} {c : Expr} {consequent alternate : List Stmt} :
      ifWord.kind = .ifWord → Derives n .expression cs c → thenWord.kind = .thenWord →
      Body n inLoop ts consequent → elseWord.kind = .elseWord → Body n inLoop es alternate →
      endWord.kind = .endWord →
      Statement (n + 1) inLoop (ifWord :: cs ++ thenWord :: ts ++ elseWord :: es ++ [endWord])
        (.branch c consequent alternate)
  /-- A minus sign in front of the body would belong to the condition. -/
  | loop {n : Nat} {inLoop : Bool} {whileWord : Token} {cs ts : List Token} {c : Expr}
      {body : Stmt} :
      whileWord.kind = .whileWord → Derives n .expression cs c → Statement n true ts body →
      (∀ t ∈ ts.head?, t.kind ≠ .minus) →
      Statement (n + 1) inLoop (whileWord :: cs ++ ts) (.loop c body)
  | counting {n : Nat} {inLoop : Bool} {forWord opening semicolon closing : Token}
      {is cs ts : List Token} {initial : Option Stmt} {c : Expr} {body : Stmt} :
      forWord.kind = .forWord → opening.kind = .leftParen → Initial n is initial →
      Condition n cs c → semicolon.kind = .semicolon → closing.kind = .rightParen →
      Statement n true ts body →
      Statement (n + 1) inLoop (forWord :: opening :: is ++ cs ++ semicolon :: closing :: ts)
        (.block (initial.toList ++ [.loop c body]))
  | countingBy {n : Nat} {inLoop : Bool} {forWord opening semicolon closing : Token}
      {is cs us ts : List Token} {initial : Option Stmt} {c u : Expr} {body : Stmt} :
      forWord.kind = .forWord → opening.kind = .leftParen → Initial n is initial →
      Condition n cs c → semicolon.kind = .semicolon → Derives n .expression us u →
      closing.kind = .rightParen → Statement n true ts body →
      Statement (n + 1) inLoop (forWord :: opening :: is ++ cs ++ semicolon :: us ++ closing :: ts)
        (.block (initial.toList ++ [.loop c (.block [body, .expr u])]))
  | leave {n : Nat} {keyword semicolon : Token} :
      keyword.kind = .breakWord → semicolon.kind = .semicolon →
      Statement (n + 1) true [keyword, semicolon] (.leave keyword)

inductive Body : Nat → Bool → List Token → List Stmt → Prop
  | nil {n : Nat} {inLoop : Bool} : Body n inLoop [] []
  | declare {n : Nat} {inLoop : Bool} {xs ys : List Token} {s : Stmt} {rest : List Stmt} :
      Variable n xs s → Body n inLoop ys rest → Body n inLoop (xs ++ ys) (s :: rest)
  | cons {n : Nat} {inLoop : Bool} {xs ys : List Token} {s : Stmt} {rest : List Stmt} :
      Statement n inLoop xs s → Body n inLoop ys rest → Body n inLoop (xs ++ ys) (s :: rest)

end

def Program (ts : List Token) (trees : List Stmt) : Prop :=
  Body 128 false ts trees

end Scriptlet.Grammar
