import Scriptlet.Proofs.Safety

/-! Where the tokens of a tree come from. Each was taken from the text, by a rule that looked at its
kind; only the operator of a compound assignment is made from the token that stands in its place. What
a complaint points at was taken from the text as well. -/
namespace Scriptlet

/-- A token of the text, or the operator of a compound assignment in it. -/
inductive Token.Drawn (T : Token → Prop) : Token → Prop
  | plain {t : Token} : T t → Drawn T t
  | compound {t x : Token} : T t → Expr.compound? t = some x → Drawn T x

def Value.constants : List Value :=
  [.nil, .bool true, .bool false]

def Value.Drawn (T : Token → Prop) (v : Value) : Prop :=
  v ∈ constants ∨ ∃ t, T t ∧ t.literal = some v

/-- A tree over tokens of the text, each of a kind that suits its place. -/
inductive Expr.Drawn (T : Token → Prop) : Expr → Prop
  | literal {v : Value} : v.Drawn T → Drawn T (.literal v)
  | var {name : Token} : T name → name.kind = .name → Drawn T (.var name)
  | assign {name : Token} {value : Expr} : T name → name.kind = .name → Drawn T value →
      Drawn T (.assign name value)
  | group {inner : Expr} : Drawn T inner → Drawn T (.group inner)
  | unary {operator : Token} {right : Expr} : T operator → operator.kind.isSign → Drawn T right →
      Drawn T (.unary operator right)
  | binary {operator : Token} {left right : Expr} : operator.Drawn T → operator.kind.isBinary →
      Drawn T left → Drawn T right → Drawn T (.binary left operator right)
  | logical {operator : Token} {left right : Expr} : T operator → operator.kind.isLogical →
      Drawn T left → Drawn T right → Drawn T (.logical left operator right)
  | choice {condition consequent alternate : Expr} : Drawn T condition → Drawn T consequent →
      Drawn T alternate → Drawn T (.choice condition consequent alternate)
  | step {operator : Token} {operand : Expr} : T operator → operator.kind.isStep → Drawn T operand →
      Drawn T (.step operand operator)

inductive Stmt.Drawn (T : Token → Prop) : Stmt → Prop
  | expr {e : Expr} : e.Drawn T → Drawn T (.expr e)
  | print {keyword : Token} {e : Expr} : T keyword → keyword.kind = .printWord → e.Drawn T →
      Drawn T (.print keyword e)
  | declare {name : Token} {initial : Option Expr} : T name → name.kind = .name →
      (∀ e ∈ initial, e.Drawn T) → Drawn T (.declare name initial)
  | block {body : List Stmt} : (∀ s ∈ body, Drawn T s) → Drawn T (.block body)
  | branch {condition : Expr} {consequent alternate : List Stmt} : condition.Drawn T →
      (∀ s ∈ consequent, Drawn T s) → (∀ s ∈ alternate, Drawn T s) →
      Drawn T (.branch condition consequent alternate)
  | loop {condition : Expr} {body : Stmt} : condition.Drawn T → Drawn T body →
      Drawn T (.loop condition body)
  | leave {keyword : Token} : T keyword → keyword.kind = .breakWord → Drawn T (.leave keyword)

def Stmt.DrawnEntries (T : Token → Prop) (found : List (Option Stmt)) : Prop :=
  ∀ s ∈ found.filterMap id, s.Drawn T

def Parsed.Drawn (T : Token → Prop) : Parsed → Prop
  | .program entries => Stmt.DrawnEntries T entries
  | .expression e => e.Drawn T

/-- A step that leaves tokens of the text, complains about such, and gives what it should. -/
structure Step.Drawn {α : Type} (T : Token → Prop) (Q : α → Prop) (s : Step α) : Prop where
  rest : ∀ t ∈ s.rest, T t
  blamed : ∀ c ∈ s.complaints, ∀ t ∈ c.token?, T t
  value : ∀ a ∈ s.value, Q a

namespace Parser

variable {α β : Type} {T : Token → Prop}

def Draws (T : Token → Prop) (Q : α → Prop) (p : Parser α) : Prop :=
  ∀ ts, (∀ t ∈ ts, T t) → (p ts).Drawn T Q

namespace Draws

variable {Q : α → Prop} {R : β → Prop} {p : Parser α} {f : α → Parser β}

theorem pure {a : α} (holds : Q a) : Draws T Q (pure a : Parser α) := by
  intro ts given
  refine ⟨given, by simp [pure_apply], ?_⟩
  rintro _ ⟨⟩
  exact holds

theorem bind (first : Draws T Q p) (next : ∀ a, Q a → Draws T R (f a)) :
    Draws T R (p >>= f) := by
  intro ts given
  obtain ⟨rest, blamed, value⟩ := first ts given
  match read : p ts with
  | ⟨none, mid, complaints⟩ =>
    rw [read] at rest blamed
    rw [bind_of_none f read]
    exact ⟨rest, blamed, nofun⟩
  | ⟨some a, mid, complaints⟩ =>
    rw [read] at rest blamed value
    rw [bind_of_some f read]
    have further := next a (value a rfl) mid rest
    exact ⟨further.rest, List.forall_mem_append.2 ⟨blamed, further.blamed⟩, further.value⟩

theorem imp {Q' : α → Prop} (draws : Draws T Q p) (weaker : ∀ a, Q a → Q' a) : Draws T Q' p :=
  fun ts given =>
    have ⟨rest, blamed, value⟩ := draws ts given
    ⟨rest, blamed, fun a read => weaker a (value a read)⟩

theorem fail (m : Mistake) : Draws T Q (fail m : Parser α) := by
  intro ts given
  refine ⟨given, ?_, nofun⟩
  intro c member t blamed
  obtain rfl := List.mem_singleton.1 member
  exact given t (List.mem_of_mem_head? blamed)

theorem complain {t : Token} (drawn : T t) (m : Mistake) :
    Draws T (fun _ => True) (complain t m) := by
  intro ts given
  refine ⟨given, ?_, fun _ _ => trivial⟩
  intro c member u blamed
  obtain rfl := List.mem_singleton.1 member
  obtain rfl := Option.some.inj blamed
  exact drawn

theorem next : Draws T (fun _ => True) next? :=
  fun _ given => ⟨given, by simp [next?], fun _ _ => trivial⟩

theorem remaining : Draws T (fun _ => True) remaining :=
  fun _ given => ⟨given, by simp [Parser.remaining], fun _ _ => trivial⟩

theorem accept_bind {kinds : List Kind} {f : Option Token → Parser β}
    (found : ∀ t, T t → t.kind ∈ kinds → Draws T R (f (some t))) (absent : Draws T R (f none)) :
    Draws T R (accept kinds >>= f) := by
  intro ts given
  obtain ⟨t, rest, rfl, member, read⟩ | ⟨-, read⟩ := accept_bind_cases kinds f ts
  · obtain ⟨first, others⟩ := List.forall_mem_cons.1 given
    rw [read]
    exact found t first member rest others
  · rw [read]
    exact absent ts given

theorem recover {resume : List Token → List Token} (inner : Draws T Q p)
    (resumed : ∀ ts, resume ts <:+ ts) :
    Draws T (fun found => ∀ a ∈ found, Q a) (recover resume p) := by
  intro ts given
  obtain ⟨rest, blamed, value⟩ := inner ts given
  simp only [Parser.recover]
  split <;> rename_i read <;> rw [read] at rest blamed value
  · refine ⟨rest, blamed, ?_⟩
    rintro _ ⟨⟩
    exact value
  · refine ⟨fun t member => rest t ((resumed _).subset member), blamed, ?_⟩
    rintro _ ⟨⟩
    simp

end Draws

theorem drawn_of_atom? {t : Token} (drawn : T t) {e : Expr} (atom : Expr.atom? t = some e) :
    e.Drawn T := by
  unfold Expr.atom? at atom
  split at atom
  case h_6 kind =>
    obtain rfl := Option.some.inj atom
    exact .var drawn kind
  case h_7 => nomatch atom
  case h_4 literal | h_5 literal =>
    obtain rfl := Option.some.inj atom
    exact .literal (.inr ⟨t, drawn, literal⟩)
  all_goals
    obtain rfl := Option.some.inj atom
    exact .literal (.inl (by simp [Value.constants]))

theorem draws_atom : Draws T (Expr.Drawn T) atom := by
  intro ts given
  obtain ⟨t, rest, e, rfl, atom, read⟩ | failed := atom_cases ts
  · obtain ⟨first, others⟩ := List.forall_mem_cons.1 given
    rw [read]
    refine ⟨others, by simp, ?_⟩
    rintro _ ⟨⟩
    exact drawn_of_atom? first atom
  · rw [failed]
    exact Draws.fail .expression ts given

end Parser

theorem Expr.Drawn.assigned {T : Token → Prop} {name operator : Token} {value : Expr}
    (target : Drawn T (.var name)) (taken : T operator) (drawn : Drawn T value) :
    Drawn T (Expr.assigned name operator value) := by
  have ⟨named, kind⟩ : T name ∧ name.kind = .name := by
    cases target with
    | var named kind => exact ⟨named, kind⟩
  unfold Expr.assigned
  split
  · rename_i plain made
    exact .assign named kind
      (.binary (.compound taken made) (Parser.isBinary_of_compound made) target drawn)
  · exact .assign named kind drawn

def TreeRelation.drawn (T : Token → Prop) : TreeRelation where
  token t u := T t ∧ t = u
  expr _ e d := e.Drawn T ∧ e = d
  stmt _ s r := s.Drawn T ∧ s = r
  kind both := congrArg Token.kind both.2
  expr_mono _ := id
  truth := ⟨.literal (.inl (by simp [Value.constants])), rfl⟩
  group := by
    rintro _ _ _ ⟨drawn, rfl⟩
    exact ⟨.group drawn, rfl⟩
  unary := by
    rintro _ _ _ _ _ ⟨taken, rfl⟩ sign ⟨drawn, rfl⟩
    exact ⟨.unary taken sign drawn, rfl⟩
  step := by
    rintro _ _ _ _ _ ⟨taken, rfl⟩ step ⟨drawn, rfl⟩
    exact ⟨.step taken step drawn, rfl⟩
  binary := by
    rintro _ _ _ _ _ _ _ ⟨taken, rfl⟩ place ⟨left, rfl⟩ ⟨right, rfl⟩
    exact ⟨.binary (.plain taken) place left right, rfl⟩
  logical := by
    rintro _ _ _ _ _ _ _ ⟨taken, rfl⟩ place ⟨left, rfl⟩ ⟨right, rfl⟩
    exact ⟨.logical taken place left right, rfl⟩
  choice := by
    rintro _ _ _ _ _ _ _ ⟨first, rfl⟩ ⟨second, rfl⟩ ⟨third, rfl⟩
    exact ⟨.choice first second third, rfl⟩
  target both := Expr.target_of_eq both.2
  assigned := by
    rintro _ _ _ _ _ _ _ _ ⟨target, ⟨⟩⟩ ⟨taken, rfl⟩ ⟨drawn, rfl⟩
    exact ⟨target.assigned taken drawn, rfl⟩
  stmt_mono _ := id
  expression := by
    rintro _ _ _ ⟨drawn, rfl⟩
    exact ⟨.expr drawn, rfl⟩
  print := by
    rintro _ _ _ _ _ ⟨taken, rfl⟩ word ⟨drawn, rfl⟩
    exact ⟨.print taken word drawn, rfl⟩
  declare := by
    rintro _ _ _ _ _ ⟨taken, rfl⟩ word initial
    cases initial with
    | none => exact ⟨.declare taken word nofun, rfl⟩
    | some both => exact ⟨.declare taken word (by simpa using both.1), by rw [both.2]⟩
  block := by
    intro _ _ _ each
    obtain ⟨drawn, rfl⟩ := same_of_forall₂ each
    exact ⟨.block drawn, rfl⟩
  branch := by
    rintro _ _ _ _ _ _ _ ⟨test, rfl⟩ first second
    obtain ⟨drawn, rfl⟩ := same_of_forall₂ first
    obtain ⟨drawn', rfl⟩ := same_of_forall₂ second
    exact ⟨.branch test drawn drawn', rfl⟩
  loop := by
    rintro _ _ _ _ _ ⟨test, rfl⟩ ⟨round, rfl⟩
    exact ⟨.loop test round, rfl⟩

namespace Parser

variable (T : Token → Prop)

theorem postcondition_draws : Postcondition T (Draws T) where
  pure := .pure
  bind := .bind
  fail _ := .fail _
  accept_bind := .accept_bind
  next := .next
  remaining := .remaining
  target taken := .complain taken .target

theorem thorough_draws : Thorough (.drawn T) fun _ _ A p _ => Draws T (fun a => ∃ b, A a b) p :=
  (postcondition_draws T).thorough (fun _ taken => ⟨taken, rfl⟩) And.left
    (draws_atom.imp fun e drawn => ⟨e, drawn, rfl⟩) (fun taken => .complain taken .strayBreak)
    (fun closers first => first.recover (resume_suffix closers)) (by
      rintro _ _ ⟨taken, rfl⟩ word
      exact ⟨.leave taken word, rfl⟩)

theorem draws_within (depth : Nat) : (Rules.within depth).Each (Draws T (Expr.Drawn T)) :=
  ((thorough_draws T).within depth).imp fun _ draws => draws.imp fun _ ⟨_, drawn, _⟩ => drawn

theorem draws_program : Draws T (Stmt.DrawnEntries T) program := by
  refine (thorough_draws T).program.imp fun found ⟨_, each⟩ => ?_
  have read := List.rel_filterMap (fun _ _ same => same) each
  exact (same_of_forall₂ read).1

end Parser

/-- A reading over some of the tokens: what it is read to, and what its reports point at. -/
structure Reading.Drawn (tokens : List Token) (r : Reading) : Prop where
  parsed : r.parsed.Drawn (· ∈ tokens)
  reports : ∀ report ∈ r.reports, ∃ t ∈ tokens, ∃ message, report = .grammar t message

namespace Reading

theorem closing_mem {tokens : List Token} (closed : tokens.getLast?.map Token.kind = some .finish) :
    closing tokens ∈ tokens := by
  obtain ⟨tail, ts, rfl, clean⟩ := Tail.exists_of_closed closed
  rw [closing_append clean tail.closed]
  simp

theorem Drawn.of {tokens : List Token} {parsed : Parsed} {complaints : List Complaint}
    (closed : tokens.getLast?.map Token.kind = some .finish) (drawn : parsed.Drawn (· ∈ tokens))
    (blamed : ∀ c ∈ complaints, ∀ t ∈ c.token?, t ∈ tokens) :
    (Reading.of tokens parsed complaints).Drawn tokens where
  parsed := drawn
  reports := by
    intro report member
    obtain ⟨c, complained, rfl⟩ := List.mem_map.1 member
    refine ⟨c.token?.getD (closing tokens), ?_, c.mistake.message, rfl⟩
    cases token : c.token? with
    | none => exact closing_mem closed
    | some t => exact blamed c complained t token

end Reading

section Readings

variable {tokens : List Token} (closed : tokens.getLast?.map Token.kind = some .finish)
include closed

theorem parse_drawn : (parse tokens).Drawn tokens := by
  have within : ∀ t ∈ Reading.content tokens, t ∈ tokens :=
    fun t member => (List.takeWhile_prefix _).subset member
  have step := Parser.draws_program (· ∈ tokens) (Reading.content tokens) within
  refine .of closed ?_ step.blamed
  cases read : (Parser.program (Reading.content tokens)).value with
  | none => exact nofun
  | some entries => exact step.value entries read

theorem parseLine_drawn : (parseLine tokens).Drawn tokens := by
  have within : ∀ t ∈ Reading.content tokens, t ∈ tokens :=
    fun t member => (List.takeWhile_prefix _).subset member
  rw [parseLine]
  split
  · rename_i e complaints whole
    have step := (Parser.draws_within (· ∈ tokens) (nestingLimit - 1)).expression
      (Reading.content tokens) within
    have read := wholeExpression?_eq_some whole
    rw [Parser.bareExpression] at read
    rw [read] at step
    exact .of closed (step.value e rfl) step.blamed
  · exact parse_drawn closed

end Readings

end Scriptlet
