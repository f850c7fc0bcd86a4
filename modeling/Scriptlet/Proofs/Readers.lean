import Mathlib.Data.List.Forall2
import Scriptlet.Program
import Scriptlet.Proofs.Proper
import Scriptlet.Proofs.Reads

/-! What holds of every rule because it holds of the parts. The rules put readers together in few ways:
one after another, with a look for kinds in front, in a loop, or with a way to go on after a mistake. A
congruence relates readers, together with the tokens they take and the trees they give, and is kept by
each of these ways. It then relates every rule to itself. The rules are gone through only here; what is
said elsewhere about all of them is said by giving a congruence. -/
namespace Scriptlet

def Kind.inExpressions : List Kind :=
  [.leftParen, .rightParen, .question, .colon, .bang, .bangEqual, .equal, .equalEqual, .greater,
    .greaterEqual, .less, .lessEqual, .plus, .plusEqual, .plusPlus, .minus, .minusEqual, .minusMinus,
    .star, .starEqual, .slash, .slashEqual, .percent, .percentEqual, .name, .string, .number,
    .andWord, .orWord, .falseWord, .trueWord, .nilWord]

def Mistake.mild : List Mistake :=
  [.target, .strayBreak]

/-- Relations between tokens and between trees that the constructors keep. The number is for relations
that also count how deep trees nest. -/
structure TreeRelation where
  token : Token → Token → Prop
  expr : Nat → Expr → Expr → Prop
  stmt : Nat → Stmt → Stmt → Prop
  kind : ∀ {t u}, token t u → t.kind = u.kind
  expr_mono : ∀ {n m e d}, n ≤ m → expr n e d → expr m e d
  truth : expr 1 (.literal (.bool true)) (.literal (.bool true))
  group : ∀ {n e d}, expr n e d → expr (n + 1) (.group e) (.group d)
  unary : ∀ {n t u e d}, token t u → t.kind.isSign → expr n e d →
    expr (n + 1) (.unary t e) (.unary u d)
  step : ∀ {n t u e d}, token t u → t.kind.isStep → expr n e d → expr (n + 1) (.step e t) (.step d u)
  binary : ∀ {n t u e d e' d'}, token t u → t.kind.isBinary → expr (n + 1) e d → expr n e' d' →
    expr (n + 1) (.binary e t e') (.binary d u d')
  logical : ∀ {n t u e d e' d'}, token t u → t.kind.isLogical → expr (n + 1) e d → expr n e' d' →
    expr (n + 1) (.logical e t e') (.logical d u d')
  choice : ∀ {n e d e' d' e'' d''}, expr n e d → expr n e' d' → expr n e'' d'' →
    expr (n + 1) (.choice e e' e'') (.choice d d' d'')
  target : ∀ {n e d}, expr n e d →
    (∃ t u, e = .var t ∧ d = .var u) ∨ (∀ t, e ≠ .var t) ∧ ∀ u, d ≠ .var u
  assigned : ∀ {n m name name' t u e d}, expr m (.var name) (.var name') → token t u → expr n e d →
    expr (n + 2) (Expr.assigned name t e) (Expr.assigned name' u d)
  stmt_mono : ∀ {n m s r}, n ≤ m → stmt n s r → stmt m s r
  expression : ∀ {n e d}, expr n e d → stmt (n + 1) (.expr e) (.expr d)
  print : ∀ {n t u e d}, token t u → t.kind = .printWord → expr n e d →
    stmt (n + 1) (.print t e) (.print u d)
  declare : ∀ {n t u i j}, token t u → t.kind = .name → Option.Rel (expr n) i j →
    stmt (n + 1) (.declare t i) (.declare u j)
  block : ∀ {n xs ys}, List.Forall₂ (stmt n) xs ys → stmt (n + 1) (.block xs) (.block ys)
  branch : ∀ {n e d xs ys xs' ys'}, expr n e d → List.Forall₂ (stmt n) xs ys →
    List.Forall₂ (stmt n) xs' ys' → stmt (n + 1) (.branch e xs xs') (.branch d ys ys')
  loop : ∀ {n e d s r}, expr n e d → stmt n s r → stmt (n + 1) (.loop e s) (.loop d r)

namespace TreeRelation

theorem counting (R : TreeRelation) {n : Nat} {initial initial' : Option Stmt}
    {condition condition' increment increment' : Option Expr} {body body' : Stmt}
    (first : Option.Rel (R.stmt (n + 1)) initial initial')
    (test : Option.Rel (R.expr n) condition condition')
    (last : Option.Rel (R.expr n) increment increment') (round : R.stmt n body body') :
    R.stmt (n + 4) (.counting initial condition increment body)
      (.counting initial' condition' increment' body') := by
  have tested : R.expr (n + 2) (condition.getD (.literal (.bool true)))
      (condition'.getD (.literal (.bool true))) := by
    cases test with
    | none => exact R.expr_mono (by omega) R.truth
    | some like => exact R.expr_mono (by omega) like
  have start : List.Forall₂ (R.stmt (n + 3)) initial.toList initial'.toList := by
    cases first with
    | none => exact .nil
    | some like => exact .cons (R.stmt_mono (by omega) like) .nil
  have looped {s r : Stmt} (inner : R.stmt (n + 2) s r) : R.stmt (n + 4)
      (.block (initial.toList ++ [.loop (condition.getD (.literal (.bool true))) s]))
      (.block (initial'.toList ++ [.loop (condition'.getD (.literal (.bool true))) r])) :=
    R.block (List.rel_append start (.cons (R.loop tested inner) .nil))
  cases last with
  | none => exact looped (R.stmt_mono (by omega) round)
  | some like =>
    exact looped (R.block (.cons (R.stmt_mono (by omega) round) (.cons (R.expression like) .nil)))

end TreeRelation

structure Rules.Each (Q : Parser Expr → Prop) (r : Rules) : Prop where
  expression : Q r.expression
  choice : Q r.choice
  signed : Q r.signed

theorem Rules.Each.imp {Q Q' : Parser Expr → Prop} {r : Rules} (each : r.Each Q)
    (weaker : ∀ p, Q p → Q' p) : r.Each Q' :=
  ⟨weaker _ each.expression, weaker _ each.choice, weaker _ each.signed⟩

namespace Parser

variable {α β : Type}

def chainRest (kinds : List Kind) (join : Expr → Token → Expr → Expr) (operand : Parser Expr)
    (left : Expr) : Parser Expr := do
  let count ← remaining
  chainFrom kinds join operand count left

theorem chain_eq (kinds : List Kind) (join : Expr → Token → Expr → Expr) (operand : Parser Expr) :
    chain kinds join operand = operand >>= chainRest kinds join operand := rfl

def assignTo (value : Parser Expr) (target : Expr) : Parser Expr := do
  match ← accept [.equal, .plusEqual, .minusEqual, .starEqual, .slashEqual, .percentEqual] with
  | some operator =>
    let value ← value
    match target with
    | .var name => return Expr.assigned name operator value
    | _ =>
      complain operator .target
      return target
  | none => return target

/-- The same where the target is not a name: a value that is there is dropped. -/
def dropValue (value : Parser Expr) (target : Expr) : Parser Expr := do
  match ← accept [.equal, .plusEqual, .minusEqual, .starEqual, .slashEqual, .percentEqual] with
  | some operator =>
    let _ ← value
    complain operator .target
    return target
  | none => return target

theorem assignment_eq (inner : Rules) :
    assignment inner = choice inner >>= assignTo inner.expression := rfl

theorem assignTo_of_other {target : Expr} (other : ∀ name, target ≠ .var name)
    (value : Parser Expr) : assignTo value target = dropValue value target := by
  cases target with
  | var name => exact absurd rfl (other name)
  | _ => rfl

def item (inner : Rules) (statement : Setting → Parser Stmt) (setting : Setting) : Parser Stmt := do
  match ← accept [.letWord] with
  | some _ => declaration inner
  | none => statement setting

theorem entry_eq (inner : Rules) (statement : Setting → Parser Stmt) (setting : Setting) :
    entry inner statement setting =
      recover (resume setting.closers) (item inner statement setting) := rfl

theorem bind_pure_eq (p : Parser α) : p >>= pure = p := by
  funext ts
  match read : p ts with
  | ⟨none, rest, complaints⟩ => rw [bind_of_none _ read]
  | ⟨some a, rest, complaints⟩ => rw [bind_of_some _ read, pure_apply, List.append_nil]

/-- All rules for expressions that are made from the rules one level further in, each with what it may
add to how deep a tree nests. -/
structure Levels (Q : Nat → Parser Expr → Prop) (n : Nat) (inner : Rules) : Prop where
  primary : Q (n + 1) (primary inner)
  stepped : Q (n + 2) (stepped inner)
  signed : Q (n + 2) (signed inner)
  product : Q (n + 3) (product inner)
  sum : Q (n + 4) (sum inner)
  order : Q (n + 5) (order inner)
  equality : Q (n + 6) (equality inner)
  conjunction : Q (n + 7) (conjunction inner)
  disjunction : Q (n + 8) (disjunction inner)
  choice : Q (n + 9) (choice inner)
  assignment : Q (n + 9) (assignment inner)

theorem Levels.imp {Q Q' : Nat → Parser Expr → Prop} {n : Nat} {inner : Rules}
    (levels : Levels Q n inner) (weaker : ∀ m p, Q m p → Q' m p) : Levels Q' n inner where
  primary := weaker _ _ levels.primary
  stepped := weaker _ _ levels.stepped
  signed := weaker _ _ levels.signed
  product := weaker _ _ levels.product
  sum := weaker _ _ levels.sum
  order := weaker _ _ levels.order
  equality := weaker _ _ levels.equality
  conjunction := weaker _ _ levels.conjunction
  disjunction := weaker _ _ levels.disjunction
  choice := weaker _ _ levels.choice
  assignment := weaker _ _ levels.assignment

/-- A relation between readers that is kept by one reader after another and by a look for kinds in
front. It may tell readers that take a token whenever they yield, and then holds of them with `true`. -/
structure Stepwise (R : TreeRelation) (allowed : Kind → Prop)
    (J : Bool → ∀ {α : Type}, (α → α → Prop) → Parser α → Parser α → Prop) : Prop where
  usual : ∀ kind ∈ Kind.inExpressions, allowed kind
  relax : ∀ {α : Type} {A : α → α → Prop} {p q : Parser α}, J true A p q → J false A p q
  pure : ∀ {α : Type} {A : α → α → Prop} {a b : α}, A a b → J false A (pure a) (pure b)
  bind : ∀ {α β : Type} {strict : Bool} {A : α → α → Prop} {B : β → β → Prop} {p q : Parser α}
    {f g : α → Parser β}, J strict A p q → (∀ a b, A a b → J false B (f a) (g b)) →
    J strict B (p >>= f) (q >>= g)
  fail : ∀ {α : Type} {strict : Bool} {A : α → α → Prop} {m : Mistake}, m ∉ Mistake.mild →
    J strict A (fail m) (fail m)
  accept_bind : ∀ {β : Type} {strict : Bool} {B : β → β → Prop} {kinds : List Kind}
    {f g : Option Token → Parser β}, (∀ kind ∈ kinds, allowed kind) →
    (∀ t u, R.token t u → t.kind ∈ kinds → J false B (f (some t)) (g (some u))) →
    J strict B (f none) (g none) → J strict B (accept kinds >>= f) (accept kinds >>= g)

/-- A relation that is kept by all that the rules for expressions are made of. -/
structure Congruence (R : TreeRelation) (allowed : Kind → Prop)
    (J : Bool → ∀ {α : Type}, (α → α → Prop) → Parser α → Parser α → Prop) : Prop extends
    Stepwise R allowed J where
  atom : J true (R.expr 1) atom atom
  chainRest : ∀ {n : Nat} {kinds : List Kind} {join : Expr → Token → Expr → Expr}
    {operand operand' : Parser Expr} {left left' : Expr}, (∀ kind ∈ kinds, allowed kind) →
    (∀ {t u e d e' d'}, R.token t u → t.kind ∈ kinds → R.expr (n + 1) e d → R.expr n e' d' →
      R.expr (n + 1) (join e t e') (join d u d')) →
    J true (R.expr n) operand operand' → R.expr (n + 1) left left' →
    J false (R.expr (n + 1)) (chainRest kinds join operand left) (chainRest kinds join operand' left')
  dropValue : ∀ {n m : Nat} {p q : Parser Expr} {e d : Expr}, J true (R.expr n) p q → R.expr m e d →
    J false (R.expr m) (dropValue p e) (dropValue q d)

theorem Stepwise.congruence {R : TreeRelation} {allowed : Kind → Prop}
    {J : Bool → ∀ {α : Type}, (α → α → Prop) → Parser α → Parser α → Prop}
    (c : Stepwise R allowed J) (atom : J true (R.expr 1) atom atom)
    (counted : ∀ {α : Type} {A : α → α → Prop} {p q : Nat → Parser α},
      (∀ count, J false A (p count) (q count)) → J false A (remaining >>= p) (remaining >>= q))
    (complain : ∀ {t u : Token}, R.token t u →
      J false (fun _ _ => True) (complain t .target) (complain u .target)) :
    Congruence R allowed J where
  toStepwise := c
  atom := atom
  chainRest {_ _ _ _ _ left left'} fine joined part like := by
    refine counted fun count => ?_
    induction count generalizing left left' with
    | zero => exact c.pure like
    | succ count ih =>
      refine c.accept_bind fine (fun t u taken found => ?_) (c.pure like)
      exact c.bind (c.relax part) fun _ _ right => ih (joined taken found like right)
  dropValue {_ _ _ _ _ _} value like := by
    refine c.accept_bind (fun kind member => c.usual kind ?_) (fun t u taken _ => ?_) (c.pure like)
    · exact (by decide : _ ⊆ Kind.inExpressions) member
    · exact c.bind (c.relax value) fun _ _ _ => c.bind (complain taken) fun _ _ _ => c.pure like

namespace Congruence

variable {R : TreeRelation} {allowed : Kind → Prop}
  {J : Bool → ∀ {α : Type}, (α → α → Prop) → Parser α → Parser α → Prop}
  (c : Congruence R allowed J) {strict : Bool} {A : α → α → Prop} {B : β → β → Prop} {n : Nat}

include c

theorem map {p q : Parser α} {f g : α → β} (first : J strict A p q)
    (related : ∀ a b, A a b → B (f a) (g b)) : J strict B (f <$> p) (g <$> q) :=
  c.bind first fun a b same => c.pure (related a b same)

theorem imp {B : α → α → Prop} {p q : Parser α} (first : J strict A p q)
    (weaker : ∀ a b, A a b → B a b) : J strict B p q := by
  rw [← bind_pure_eq p, ← bind_pure_eq q]
  exact c.bind first fun a b same => c.pure (weaker a b same)

theorem expect {kind : Kind} {m : Mistake} (fine : allowed kind) (grave : m ∉ Mistake.mild) :
    J strict (fun t u => R.token t u ∧ t.kind = kind) (expect kind m) (expect kind m) :=
  c.accept_bind (by simpa using fine)
    (fun _ _ taken found => c.pure ⟨taken, List.mem_singleton.1 found⟩) (c.fail grave)

theorem look {kinds : List Kind} {f g : Option Token → Parser β} (usual : kinds ⊆ Kind.inExpressions)
    (found : ∀ t u, R.token t u → t.kind ∈ kinds → J false B (f (some t)) (g (some u)))
    (absent : J strict B (f none) (g none)) : J strict B (accept kinds >>= f) (accept kinds >>= g) :=
  c.accept_bind (fun kind member => c.usual kind (usual member)) found absent

theorem ending {kind : Kind} {m : Mistake} {a b : α} (fine : allowed kind) (grave : m ∉ Mistake.mild)
    (same : A a b) : J false A (do let _ ← Parser.expect kind m; return a)
      (do let _ ← Parser.expect kind m; return b) :=
  c.bind (c.expect fine grave) fun _ _ _ => c.pure same

section Expressions

variable {inner : Rules}

theorem chain {kinds : List Kind} {join : Expr → Token → Expr → Expr} {operand operand' : Parser Expr}
    (usual : kinds ⊆ Kind.inExpressions)
    (joined : ∀ {t u e d e' d'}, R.token t u → t.kind ∈ kinds → R.expr (n + 1) e d →
      R.expr n e' d' → R.expr (n + 1) (join e t e') (join d u d'))
    (part : J true (R.expr n) operand operand') :
    J true (R.expr (n + 1)) (chain kinds join operand) (chain kinds join operand') := by
  have fine : ∀ kind ∈ kinds, allowed kind := fun kind member => c.usual kind (usual member)
  rw [chain_eq, chain_eq]
  exact c.bind part fun _ _ left => c.chainRest fine joined part (R.expr_mono (Nat.le_succ n) left)

theorem binaryChain {kinds : List Kind} {operand operand' : Parser Expr}
    (usual : kinds ⊆ Kind.inExpressions) (places : kinds.all Kind.isBinary)
    (part : J true (R.expr n) operand operand') :
    J true (R.expr (n + 1)) (Parser.chain kinds .binary operand)
      (Parser.chain kinds .binary operand') :=
  c.chain usual (fun taken found => R.binary taken (List.all_eq_true.1 places _ found)) part

theorem logicalChain {kinds : List Kind} {operand operand' : Parser Expr}
    (usual : kinds ⊆ Kind.inExpressions) (places : kinds.all Kind.isLogical)
    (part : J true (R.expr n) operand operand') :
    J true (R.expr (n + 1)) (Parser.chain kinds .logical operand)
      (Parser.chain kinds .logical operand') :=
  c.chain usual (fun taken found => R.logical taken (List.all_eq_true.1 places _ found)) part

variable (further : inner.Each fun p => J true (R.expr n) p p)

include further

theorem primary : J true (R.expr (n + 1)) (primary inner) (primary inner) := by
  refine c.look (by decide) (fun _ _ _ _ => ?_) ?_
  · refine c.bind (c.relax further.expression) fun _ _ like => ?_
    exact c.ending (c.usual _ (by decide)) (by decide) (R.group like)
  · exact c.imp c.atom fun _ _ like => R.expr_mono (Nat.le_add_left 1 n) like

theorem stepped : J true (R.expr (n + 2)) (stepped inner) (stepped inner) := by
  refine c.bind (c.primary further) fun _ _ like => ?_
  refine c.look (by decide) (fun t u taken found => c.pure (R.step taken ?_ like)) ?_
  · simpa [Kind.isStep, or_comm] using found
  · exact c.pure (R.expr_mono (Nat.le_succ _) like)

theorem signed : J true (R.expr (n + 2)) (signed inner) (signed inner) := by
  refine c.look (by decide) (fun t u taken found => ?_) (c.stepped further)
  refine c.bind (c.relax further.signed) fun _ _ like => c.pure ?_
  exact R.unary taken (by simpa [Kind.isSign] using found) (R.expr_mono (Nat.le_succ n) like)

theorem choice (operand : J true (R.expr (n + 8)) (disjunction inner) (disjunction inner)) :
    J true (R.expr (n + 9)) (choice inner) (choice inner) := by
  refine c.bind operand fun _ _ condition => ?_
  refine c.look (by decide) (fun _ _ _ _ => ?_) (c.pure (R.expr_mono (Nat.le_succ _) condition))
  refine c.bind (c.relax operand) fun _ _ consequent => ?_
  refine c.bind (c.expect (c.usual _ (by decide)) (by decide)) fun _ _ _ => ?_
  refine c.bind (c.relax further.choice) fun _ _ alternate => c.pure ?_
  exact R.choice condition consequent (R.expr_mono (Nat.le_add_right n 8) alternate)

/-- Only a name can be assigned to, and both targets are one or neither is. -/
theorem assignTo {e d : Expr} (target : R.expr (n + 9) e d) :
    J false (R.expr (n + 9)) (assignTo inner.expression e) (assignTo inner.expression d) := by
  obtain ⟨name, name', rfl, rfl⟩ | ⟨other, other'⟩ := R.target target
  · refine c.look (by decide) (fun _ _ taken _ => ?_) (c.pure target)
    refine c.bind (c.relax further.expression) fun _ _ like => c.pure ?_
    exact R.expr_mono (by omega) (R.assigned target taken like)
  · rw [assignTo_of_other other, assignTo_of_other other']
    exact c.dropValue further.expression target

theorem levels : Levels (fun m p => J true (R.expr m) p p) n inner := by
  have signed := c.signed further
  have product : J true (R.expr (n + 3)) (product inner) (product inner) :=
    c.binaryChain (by decide) (by decide) signed
  have sum : J true (R.expr (n + 4)) (sum inner) (sum inner) :=
    c.binaryChain (by decide) (by decide) product
  have order : J true (R.expr (n + 5)) (order inner) (order inner) :=
    c.binaryChain (by decide) (by decide) sum
  have equality : J true (R.expr (n + 6)) (equality inner) (equality inner) :=
    c.binaryChain (by decide) (by decide) order
  have conjunction : J true (R.expr (n + 7)) (conjunction inner) (conjunction inner) :=
    c.logicalChain (by decide) (by decide) equality
  have disjunction : J true (R.expr (n + 8)) (disjunction inner) (disjunction inner) :=
    c.logicalChain (by decide) (by decide) conjunction
  have choice := c.choice further disjunction
  have assignment : J true (R.expr (n + 9)) (assignment inner) (assignment inner) := by
    rw [assignment_eq]
    exact c.bind choice fun _ _ target => c.assignTo further target
  exact ⟨c.primary further, c.stepped further, signed, product, sum, order, equality, conjunction,
    disjunction, choice, assignment⟩

omit further

theorem within (depth : Nat) :
    (Rules.within depth).Each fun p => J true (R.expr (9 * depth)) p p := by
  induction depth with
  | zero => exact ⟨c.fail (by decide), c.fail (by decide), c.fail (by decide)⟩
  | succ depth ih =>
    -- of the rules that are handed on, assignments add the most
    have levels := c.levels ih
    have signed := c.imp levels.signed fun _ _ like =>
      R.expr_mono (Nat.add_le_add_left (by decide : 2 ≤ 9) (9 * depth)) like
    exact ⟨levels.assignment, levels.choice, signed⟩

end Expressions

section Statements

variable {inner : Rules} {statement : Setting → Parser Stmt} {setting : Setting}
  (ends : allowed .semicolon) (further : inner.Each fun p => J true (R.expr n) p p)

include ends further

theorem expressionStatement :
    J true (R.stmt (n + 1)) (expressionStatement inner) (expressionStatement inner) :=
  c.bind further.expression fun _ _ like => c.ending ends (by decide) (R.expression like)

theorem printStatement {t u : Token} (taken : R.token t u) (word : t.kind = .printWord) :
    J true (R.stmt (n + 1)) (printStatement inner t) (printStatement inner u) :=
  c.bind further.expression fun _ _ like => c.ending ends (by decide) (R.print taken word like)

theorem declaration : J true (R.stmt (n + 1)) (declaration inner) (declaration inner) := by
  refine c.bind (c.expect (c.usual _ (by decide)) (by decide)) fun name name' named => ?_
  have ending {i j : Option Expr} (like : Option.Rel (R.expr n) i j) :
      J false (R.stmt (n + 1))
        (do let _ ← Parser.expect .semicolon .declarationEnd; return .declare name i)
        (do let _ ← Parser.expect .semicolon .declarationEnd; return .declare name' j) :=
    c.ending ends (by decide) (R.declare named.1 named.2 like)
  refine c.look (by decide) (fun _ _ _ _ => ?_) (c.bind (c.pure .none) fun _ _ => ending)
  exact c.bind (c.map (c.relax further.expression) fun _ _ => .some) fun _ _ => ending

theorem initialStatement (word : allowed .letWord) :
    J false (Option.Rel (R.stmt (n + 1))) (initialStatement inner) (initialStatement inner) := by
  refine c.accept_bind (by simpa using ends) (fun _ _ _ _ => c.pure .none) ?_
  refine c.accept_bind (by simpa using word) (fun _ _ _ _ => ?_) ?_
  · exact c.map (c.relax (c.declaration ends further)) fun _ _ => .some
  · exact c.map (c.relax (c.expressionStatement ends further)) fun _ _ => .some

omit further in
theorem breakStatement {t u : Token} (left : R.stmt n (.leave t) (.leave u))
    (blames : J false (fun _ _ => True) (complain t .strayBreak) (complain u .strayBreak)) :
    J false (R.stmt n) (breakStatement setting t) (breakStatement setting u) := by
  have ending : J false (R.stmt n)
      (do let _ ← Parser.expect .semicolon .breakEnd; return Stmt.leave t)
      (do let _ ← Parser.expect .semicolon .breakEnd; return Stmt.leave u) :=
    c.ending ends (by decide) left
  rw [Parser.breakStatement, Parser.breakStatement]
  split
  · exact c.bind blames fun _ _ _ => ending
  · exact ending

end Statements

end Congruence

def Looks (J : Bool → ∀ {α : Type}, (α → α → Prop) → Parser α → Parser α → Prop) : Prop :=
  ∀ ⦃β : Type⦄ ⦃B : β → β → Prop⦄ ⦃f g : Option Token → Parser β⦄, J false B (f none) (g none) →
    (∀ t u, t.kind = u.kind → J false B (f (some t)) (g (some u))) →
    J false B (next? >>= f) (next? >>= g)

namespace Congruence

variable {R : TreeRelation} {allowed : Kind → Prop}
  {J : Bool → ∀ {α : Type}, (α → α → Prop) → Parser α → Parser α → Prop}
  (c : Congruence R allowed J) {n : Nat} {inner : Rules} {statement : Setting → Parser Stmt}
  {setting : Setting} (further : inner.Each fun p => J true (R.expr n) p p)
  (nested : ∀ s, J true (R.stmt n) (statement s) (statement s))

include c further

theorem optionalExpression (looks : Looks J) (closer : Kind) :
    J false (Option.Rel (R.expr n)) (optionalExpression inner closer)
      (optionalExpression inner closer) := by
  have present : J false (Option.Rel (R.expr n)) (some <$> inner.expression)
      (some <$> inner.expression) := c.map (c.relax further.expression) fun _ _ => .some
  refine looks present fun t u same => ?_
  simp only [← same]
  split
  · exact c.pure .none
  · exact present

include nested

theorem whileLoop : J true (R.stmt (n + 1)) (whileLoop inner statement setting)
    (whileLoop inner statement setting) :=
  c.bind further.expression fun _ _ condition => c.bind (c.relax (nested _)) fun _ _ round =>
    c.pure (R.loop condition round)

theorem forLoop (looks : Looks J) (ends : allowed .semicolon) (word : allowed .letWord) :
    J true (R.stmt (n + 4)) (forLoop inner statement setting) (forLoop inner statement setting) := by
  have optional := c.optionalExpression further looks
  refine c.bind (c.expect (c.usual _ (by decide)) (by decide)) fun _ _ _ => ?_
  refine c.bind (c.initialStatement ends further word) fun _ _ initial => ?_
  refine c.bind (optional _) fun _ _ condition => ?_
  refine c.bind (c.expect ends (by decide)) fun _ _ _ => c.bind (optional _) fun _ _ increment => ?_
  refine c.bind (c.expect (c.usual _ (by decide)) (by decide)) fun _ _ _ => ?_
  exact c.bind (c.relax (nested _)) fun _ _ round =>
    c.pure (R.counting initial condition increment round)

end Congruence

/-- A congruence that is also kept by the ways in which statements are put together: no kind is left out,
a token may be complained about and looked at, and after a mistake reading may go on. -/
structure Thorough (R : TreeRelation)
    (J : Bool → ∀ {α : Type}, (α → α → Prop) → Parser α → Parser α → Prop) : Prop extends
    Congruence R (fun _ => True) J where
  complain : ∀ {t u : Token} {m : Mistake}, R.token t u → m ∈ Mistake.mild →
    J false (fun _ _ => True) (complain t m) (complain u m)
  leave : ∀ {t u : Token}, R.token t u → t.kind = .breakWord → R.stmt 1 (.leave t) (.leave u)
  looks : Looks J
  counted : ∀ {α : Type} {A : α → α → Prop} {p q : Nat → Parser α},
    (∀ count, J false A (p count) (q count)) → J false A (remaining >>= p) (remaining >>= q)
  recover : ∀ {α : Type} {strict : Bool} {A : α → α → Prop} {p q : Parser α} (closers : List Kind),
    J strict A p q →
    J false (Option.Rel A) (recover (resume closers) p) (recover (resume closers) q)

namespace Thorough

variable {R : TreeRelation}
  {J : Bool → ∀ {α : Type}, (α → α → Prop) → Parser α → Parser α → Prop} (c : Thorough R J) {n : Nat}

include c

section Rules

variable {inner : Rules} {statement : Setting → Parser Stmt}
  (further : inner.Each fun p => J true (R.expr n) p p)

include further

theorem item {setting : Setting} {strict : Bool}
    (nested : J strict (R.stmt (n + 1)) (statement setting) (statement setting)) :
    J strict (R.stmt (n + 1)) (item inner statement setting) (item inner statement setting) :=
  c.accept_bind (fun _ _ => trivial)
    (fun _ _ _ _ => c.relax (c.declaration trivial further)) nested

variable (nested : ∀ s, J true (R.stmt n) (statement s) (statement s))

include nested

theorem entries (setting : Setting) :
    J false (List.Forall₂ (Option.Rel (R.stmt (n + 1)))) (entries (entry inner statement) setting)
      (entries (entry inner statement) setting) := by
  have one : J false (Option.Rel (R.stmt (n + 1))) (entry inner statement setting)
      (entry inner statement setting) :=
    c.recover _ (c.item further (c.imp (nested setting) fun _ _ like =>
      R.stmt_mono (Nat.le_succ n) like))
  refine c.counted fun count => ?_
  induction count with
  | zero => exact c.pure .nil
  | succ count ih =>
    refine c.looks (c.pure .nil) fun t u same => ?_
    simp only [← same]
    split
    · exact c.pure .nil
    · exact c.bind one fun _ _ first => c.bind ih fun _ _ rest => c.pure (.cons first rest)

theorem body (setting : Setting) :
    J false (List.Forall₂ (R.stmt (n + 1))) (body inner statement setting)
      (body inner statement setting) :=
  c.bind (c.entries further nested setting) fun _ _ like =>
    c.pure (List.rel_filterMap (fun _ _ same => same) like)

theorem block (setting : Setting) :
    J false (R.stmt (n + 2)) (block inner statement setting) (block inner statement setting) :=
  c.bind (c.body further nested _) fun _ _ like => c.ending trivial (by decide) (R.block like)

theorem branch (setting : Setting) :
    J false (R.stmt (n + 2)) (branch inner statement setting) (branch inner statement setting) := by
  have part := c.body further nested
  refine c.bind (c.relax further.expression) fun condition condition' test => ?_
  refine c.bind (c.expect trivial (by decide)) fun _ _ _ => ?_
  refine c.bind (part _) fun consequent consequent' first => ?_
  have ending {xs ys : List Stmt} (second : List.Forall₂ (R.stmt (n + 1)) xs ys) :
      J false (R.stmt (n + 2))
        (do let _ ← expect .endWord .branchEnd; return Stmt.branch condition consequent xs)
        (do let _ ← expect .endWord .branchEnd; return Stmt.branch condition' consequent' ys) :=
    c.ending trivial (by decide) (R.branch (R.expr_mono (Nat.le_succ n) test) first second)
  refine c.accept_bind (fun _ _ => trivial) (fun _ _ _ _ => ?_) ?_
  · exact c.bind (part _) fun _ _ => ending
  · exact c.bind (c.pure .nil) fun _ _ => ending

theorem statementWith (setting : Setting) :
    J true (R.stmt (n + 4)) (statementWith inner statement setting)
      (statementWith inner statement setting) := by
  have widen {m : Nat} {strict : Bool} {p q : Parser Stmt} (le : m ≤ n + 4)
      (first : J strict (R.stmt m) p q) : J strict (R.stmt (n + 4)) p q :=
    c.imp first fun _ _ => R.stmt_mono le
  refine c.accept_bind (fun _ _ => trivial) (fun t u taken found => ?_)
    (widen (by omega) (c.expressionStatement trivial further))
  simp only [← R.kind taken]
  split
  · exact widen (by omega) (c.relax (c.printStatement trivial further taken ‹_›))
  · exact widen (by omega) (c.block further nested setting)
  · exact widen (by omega) (c.branch further nested setting)
  · exact widen (by omega) (c.relax (c.whileLoop further nested))
  · exact c.relax (c.forLoop further nested c.looks trivial trivial)
  · -- of the words that may stand here, only one is left
    have word : t.kind = .breakWord := by simp_all
    exact widen (by omega)
      (c.breakStatement trivial (c.leave taken word) (c.complain taken (by decide)))

end Rules

theorem statement (depth : Nat) (setting : Setting) :
    J true (R.stmt (9 * depth)) (statement depth setting) (statement depth setting) := by
  induction depth generalizing setting with
  | zero => exact c.fail (by decide)
  | succ depth ih =>
    exact c.imp (c.statementWith (c.within depth) ih setting) fun _ _ => R.stmt_mono (by omega)

theorem program :
    J false (List.Forall₂ (Option.Rel (R.stmt (9 * nestingLimit + 1)))) program program :=
  c.entries (c.within nestingLimit) (c.statement nestingLimit) .top

end Thorough

def Yields (p : Parser α) (a : α) : Prop :=
  ∃ ts, (p ts).value = some a

section Yields

variable {p : Parser α} {f : α → Parser β} {b : β}

theorem yields_pure {a a' : α} : Yields (pure a : Parser α) a' ↔ a = a' := by
  simp [Yields, pure_apply]

theorem not_yields_fail {m : Mistake} {a : α} : ¬ Yields (fail m : Parser α) a := by
  simp [Yields, fail]

theorem Yields.of_bind (yields : Yields (p >>= f) b) : ∃ a, Yields p a ∧ Yields (f a) b := by
  obtain ⟨ts, value⟩ := yields
  match read : p ts with
  | ⟨none, rest, complaints⟩ =>
    rw [bind_of_none f read] at value
    nomatch value
  | ⟨some a, rest, complaints⟩ =>
    rw [bind_of_some f read] at value
    exact ⟨a, ⟨ts, by rw [read]⟩, rest, value⟩

theorem Yields.of_accept_bind {kinds : List Kind} {f : Option Token → Parser β}
    (yields : Yields (accept kinds >>= f) b) :
    (∃ t, t.kind ∈ kinds ∧ Yields (f (some t)) b) ∨ Yields (f none) b := by
  obtain ⟨ts, value⟩ := yields
  obtain ⟨t, rest, -, member, taken⟩ | ⟨-, left⟩ := accept_bind_cases kinds f ts
  · exact .inl ⟨t, member, rest, taken ▸ value⟩
  · exact .inr ⟨ts, left ▸ value⟩

theorem Yields.of_recover {resume : List Token → List Token} {found : Option α}
    (yields : Yields (recover resume p) found) : ∀ a ∈ found, Yields p a := by
  rintro a rfl
  obtain ⟨ts, value⟩ := yields
  rw [recover] at value
  split at value
  · rename_i read
    exact ⟨ts, by rw [read]; exact Option.some.inj value⟩
  · nomatch value

end Yields

end Parser

theorem exists_rel {α : Type} {A : α → α → Prop} {found : Option α} (each : ∀ a ∈ found, ∃ b, A a b) :
    ∃ other, Option.Rel A found other := by
  cases found with
  | none => exact ⟨none, .none⟩
  | some a =>
    obtain ⟨b, same⟩ := each a rfl
    exact ⟨some b, .some same⟩

theorem same_of_forall₂ {α : Type} {Q : α → Prop} {xs ys : List α}
    (each : List.Forall₂ (fun a b => Q a ∧ a = b) xs ys) : (∀ a ∈ xs, Q a) ∧ xs = ys := by
  rwa [List.forall₂_and_left, List.forall₂_eq_eq_eq] at each

theorem Expr.target_of_eq {e d : Expr} (same : e = d) :
    (∃ t u, e = .var t ∧ d = .var u) ∨ (∀ t, e ≠ .var t) ∧ ∀ u, d ≠ .var u := by
  subst same
  cases e with
  | var name => exact .inl ⟨name, name, rfl, rfl⟩
  | _ => exact .inr ⟨by simp, by simp⟩

def TreeRelation.same : TreeRelation where
  token := Eq
  expr _ := Eq
  stmt _ := Eq
  kind := congrArg Token.kind
  expr_mono _ := id
  truth := rfl
  group := by rintro _ _ _ rfl; rfl
  unary := by rintro _ _ _ _ _ rfl _ rfl; rfl
  step := by rintro _ _ _ _ _ rfl _ rfl; rfl
  binary := by rintro _ _ _ _ _ _ _ rfl _ rfl rfl; rfl
  logical := by rintro _ _ _ _ _ _ _ rfl _ rfl rfl; rfl
  choice := by rintro _ _ _ _ _ _ _ rfl rfl rfl; rfl
  target := Expr.target_of_eq
  assigned := by
    rintro _ _ _ _ _ _ _ _ named rfl rfl
    rw [Expr.var.inj named]
  stmt_mono _ := id
  expression := by rintro _ _ _ rfl; rfl
  print := by rintro _ _ _ _ _ rfl _ rfl; rfl
  declare := by
    rintro _ _ _ _ _ rfl _ initial
    cases initial <;> simp_all
  block := by
    intro _ _ _ same
    rw [List.forall₂_eq_eq_eq] at same
    rw [same]
  branch := by
    intro _ _ _ _ _ _ _ same first second
    rw [List.forall₂_eq_eq_eq] at first second
    rw [same, first, second]
  loop := by rintro _ _ _ _ _ rfl rfl; rfl

namespace Parser

variable {α β : Type}

/-- A way to say what readers give, where all tokens are of some sort. -/
structure Postcondition (T : Token → Prop) (K : ∀ {α : Type}, (α → Prop) → Parser α → Prop) :
    Prop where
  pure : ∀ {α : Type} {Q : α → Prop} {a : α}, Q a → K Q (pure a)
  bind : ∀ {α β : Type} {Q : α → Prop} {Q' : β → Prop} {p : Parser α} {f : α → Parser β}, K Q p →
    (∀ a, Q a → K Q' (f a)) → K Q' (p >>= f)
  fail : ∀ {α : Type} {Q : α → Prop} {m : Mistake}, m ∉ Mistake.mild → K Q (fail m)
  accept_bind : ∀ {β : Type} {Q : β → Prop} {kinds : List Kind} {f : Option Token → Parser β},
    (∀ t, T t → t.kind ∈ kinds → K Q (f (some t))) → K Q (f none) → K Q (accept kinds >>= f)
  next : K (fun _ => True) next?
  remaining : K (fun _ => True) remaining
  target : ∀ {t : Token}, T t → K (fun _ => True) (complain t .target)

namespace Postcondition

variable {T : Token → Prop} {K : ∀ {α : Type}, (α → Prop) → Parser α → Prop}
  (post : Postcondition T K)

include post

theorem imp {Q Q' : α → Prop} {p : Parser α} (holds : K Q p) (weaker : ∀ a, Q a → Q' a) :
    K Q' p := by
  rw [← bind_pure_eq p]
  exact post.bind holds fun a given => post.pure (weaker a given)

theorem looks : Looks fun _ _ A p _ => K (fun a => ∃ b, A a b) p := by
  intro _ _ _ _ absent found
  refine post.bind post.next fun a _ => ?_
  cases a with
  | none => exact absent
  | some t => exact found t t rfl

section Relation

variable {R : TreeRelation} (reads : ∀ t, T t → R.token t t) (taken : ∀ {t u}, R.token t u → T t)
  (atoms : K (fun e => ∃ d, R.expr 1 e d) atom)

include reads taken atoms

theorem congruence : Congruence R (fun _ => True) fun _ _ A p _ => K (fun a => ∃ b, A a b) p := by
  refine Stepwise.congruence ?_ atoms (fun each => ?_) fun same => ?_
  · exact {
      usual := fun _ _ => trivial
      relax := id
      pure := fun same => post.pure ⟨_, same⟩
      bind := fun first next => post.bind first fun a ⟨b, same⟩ => next a b same
      fail := post.fail
      accept_bind := fun _ found absent =>
        post.accept_bind (fun t sort => found t t (reads t sort)) absent }
  · exact post.bind post.remaining fun count _ => each count
  · exact post.imp (post.target (taken same)) fun _ _ => ⟨(), trivial⟩

/-- To hold of statements as well, it has to be kept by recovery and by the complaint about a break. -/
theorem thorough (stray : ∀ {t}, T t → K (fun _ => True) (complain t .strayBreak))
    (recovers : ∀ {α : Type} {Q : α → Prop} {p : Parser α} (closers : List Kind), K Q p →
      K (fun found => ∀ a ∈ found, Q a) (recover (resume closers) p))
    (leave : ∀ {t u}, R.token t u → t.kind = .breakWord → R.stmt 1 (.leave t) (.leave u)) :
    Thorough R fun _ _ A p _ => K (fun a => ∃ b, A a b) p where
  toCongruence := post.congruence reads taken atoms
  complain {t _ m} same mild := by
    have complains : K (fun _ => True) (Parser.complain t m) := by
      obtain rfl | rfl := by simpa [Mistake.mild] using mild
      · exact post.target (taken same)
      · exact stray (taken same)
    exact post.imp complains fun _ _ => ⟨(), trivial⟩
  leave := leave
  looks := post.looks
  counted each := post.bind post.remaining fun count _ => each count
  recover closers first := post.imp (recovers closers first) fun _ => exists_rel

end Relation

end Postcondition

structure PassesOn (allowed : Kind → Prop) (P : Bool → ∀ {α : Type}, Parser α → Prop) : Prop where
  usual : ∀ kind ∈ Kind.inExpressions, allowed kind
  relax : ∀ {α : Type} {p : Parser α}, P true p → P false p
  pure : ∀ {α : Type} (a : α), P false (pure a : Parser α)
  bind : ∀ {α β : Type} {strict : Bool} {p : Parser α} {f : α → Parser β}, P strict p →
    (∀ a, Yields p a → P false (f a)) → P strict (p >>= f)
  fail : ∀ {α : Type} {strict : Bool} {m : Mistake}, m ∉ Mistake.mild →
    P strict (fail m : Parser α)
  accept_bind : ∀ {β : Type} {strict : Bool} {kinds : List Kind} {f : Option Token → Parser β},
    (∀ kind ∈ kinds, allowed kind) → (∀ t, t.kind ∈ kinds → P false (f (some t))) →
    P strict (f none) → P strict (accept kinds >>= f)

/-- A fact that holds of the rules if it holds of their parts. -/
structure Passes (allowed : Kind → Prop) (P : Bool → ∀ {α : Type}, Parser α → Prop) : Prop extends
    PassesOn allowed P where
  atom : P true atom
  chainRest : ∀ {kinds : List Kind} {join : Expr → Token → Expr → Expr} {operand : Parser Expr}
    (left : Expr), (∀ kind ∈ kinds, allowed kind) → P true operand →
    P false (chainRest kinds join operand left)
  dropValue : ∀ {p : Parser Expr} (target : Expr), P true p → P false (dropValue p target)

namespace PassesOn

variable {allowed : Kind → Prop} {P : Bool → ∀ {α : Type}, Parser α → Prop}
  (passes : PassesOn allowed P)

include passes

theorem chainRest (counts : P false remaining) {kinds : List Kind}
    {join : Expr → Token → Expr → Expr} {operand : Parser Expr} (left : Expr)
    (fine : ∀ kind ∈ kinds, allowed kind) (part : P true operand) :
    P false (chainRest kinds join operand left) := by
  have rest (count : Nat) : P false (chainFrom kinds join operand count left) := by
    induction count generalizing left with
    | zero => exact passes.pure left
    | succ count ih =>
      refine passes.accept_bind fine (fun operator _ => ?_) (passes.pure left)
      exact passes.bind (passes.relax part) fun right _ => ih _
  exact passes.bind counts fun count _ => rest count

theorem dropValue (complains : ∀ t, P false (complain t .target)) {p : Parser Expr} (target : Expr)
    (value : P true p) : P false (dropValue p target) := by
  refine passes.accept_bind (fun kind member => passes.usual kind ?_) (fun operator _ => ?_)
    (passes.pure target)
  · exact (by decide : _ ⊆ Kind.inExpressions) member
  · exact passes.bind (passes.relax value) fun _ _ =>
      passes.bind (complains operator) fun _ _ => passes.pure target

end PassesOn

namespace Passes

variable {allowed : Kind → Prop} {P : Bool → ∀ {α : Type}, Parser α → Prop}
  (passes : Passes allowed P)

include passes

/-- The values are carried along, so that each bind has only those to go on with that can be given. -/
theorem congruence : Congruence .same allowed fun strict _ A p _ =>
    P strict p ∧ ∀ a, Yields p a → ∃ b, A a b where
  usual := passes.usual
  relax both := ⟨passes.relax both.1, both.2⟩
  pure {_ _ a b} same := by
    refine ⟨passes.pure a, fun a' given => ?_⟩
    obtain rfl := yields_pure.1 given
    exact ⟨b, same⟩
  bind {_ _ _ _ _ _ _ _ _} first next := by
    refine ⟨passes.bind first.1 fun a given => ?_, fun b given => ?_⟩
    · obtain ⟨a', same⟩ := first.2 a given
      exact (next a a' same).1
    · obtain ⟨a, before, after⟩ := given.of_bind
      obtain ⟨a', same⟩ := first.2 a before
      exact (next a a' same).2 b after
  fail grave := ⟨passes.fail grave, fun _ given => absurd given not_yields_fail⟩
  accept_bind fine found absent := by
    refine ⟨passes.accept_bind fine (fun t member => (found t t rfl member).1) absent.1, ?_⟩
    intro b given
    obtain ⟨t, member, given⟩ | given := given.of_accept_bind
    · exact (found t t rfl member).2 b given
    · exact absent.2 b given
  atom := ⟨passes.atom, fun a _ => ⟨a, rfl⟩⟩
  chainRest fine _ part _ := ⟨passes.chainRest _ fine part.1, fun a _ => ⟨a, rfl⟩⟩
  dropValue value _ := ⟨passes.dropValue _ value.1, fun a _ => ⟨a, rfl⟩⟩

theorem looks (next : P false next?) :
    Looks fun strict _ A p _ => P strict p ∧ ∀ a, Yields p a → ∃ b, A a b := by
  intro β B f g absent found
  refine ⟨passes.bind next fun a _ => ?_, fun b given => ?_⟩
  · cases a with
    | none => exact absent.1
    | some t => exact (found t t rfl).1
  · obtain ⟨a, -, given⟩ := given.of_bind
    cases a with
    | none => exact absent.2 b given
    | some t => exact (found t t rfl).2 b given

section Rules

variable {inner : Rules} {statement : Setting → Parser Stmt} {setting : Setting}

omit passes in
theorem related (further : inner.Each (P true)) :
    inner.Each fun p => P true p ∧ ∀ a, Yields p a → ∃ b, TreeRelation.same.expr 0 a b :=
  further.imp fun _ holds => ⟨holds, fun a _ => ⟨a, rfl⟩⟩

theorem within (depth : Nat) : (Rules.within depth).Each (P true) :=
  (passes.congruence.within depth).imp fun _ both => both.1

variable (ends : allowed .semicolon)

theorem breakStatement (ends : allowed .semicolon) {keyword : Token}
    (blames : P false (complain keyword .strayBreak)) :
    P false (breakStatement setting keyword) := by
  have left : TreeRelation.same.stmt 0 (.leave keyword) (.leave keyword) := rfl
  exact (passes.congruence.breakStatement ends left ⟨blames, fun _ _ => ⟨(), trivial⟩⟩).1

variable (further : inner.Each (P true))

include further

theorem levels : Levels (fun _ => P true) 0 inner :=
  (passes.congruence.levels (related further)).imp fun _ _ both => both.1

include ends

theorem declaration : P true (declaration inner) :=
  (passes.congruence.declaration ends (related further)).1

theorem expressionStatement : P true (expressionStatement inner) :=
  (passes.congruence.expressionStatement ends (related further)).1

theorem printStatement {keyword : Token} (word : keyword.kind = .printWord) :
    P true (printStatement inner keyword) :=
  (passes.congruence.printStatement ends (related further) rfl word).1

variable (nested : ∀ s, P true (statement s))

omit ends in
include nested in
theorem whileLoop : P true (whileLoop inner statement setting) :=
  (passes.congruence.whileLoop (related further)
    fun s => ⟨nested s, fun a _ => ⟨a, rfl⟩⟩).1

include nested in
theorem forLoop (next : P false next?) (word : allowed .letWord) :
    P true (forLoop inner statement setting) :=
  (passes.congruence.forLoop (related further)
    (fun s => ⟨nested s, fun a _ => ⟨a, rfl⟩⟩) (passes.looks next) ends word).1

end Rules

end Passes

theorem Passes.thorough {P : Bool → ∀ {α : Type}, Parser α → Prop}
    (passes : Passes (fun _ => True) P) (complains : ∀ t m, P false (complain t m))
    (looks : P false next?) (counts : P false remaining)
    (recovers : ∀ {α : Type} {strict : Bool} {p : Parser α} (closers : List Kind), P strict p →
      P false (recover (resume closers) p)) :
    Thorough .same fun strict _ A p _ => P strict p ∧ ∀ a, Yields p a → ∃ b, A a b where
  toCongruence := passes.congruence
  complain _ _ := ⟨complains _ _, fun _ _ => ⟨(), trivial⟩⟩
  leave := by rintro _ _ rfl _; rfl
  looks := passes.looks looks
  counted each := by
    refine ⟨passes.bind counts fun count _ => (each count).1, fun a given => ?_⟩
    obtain ⟨count, -, given⟩ := given.of_bind
    exact (each count).2 a given
  recover closers first := ⟨recovers closers first.1, fun _ given =>
    exists_rel fun a member => first.2 a (given.of_recover a member)⟩

end Parser

end Scriptlet
