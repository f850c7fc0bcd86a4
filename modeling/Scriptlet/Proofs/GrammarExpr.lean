import Scriptlet.Proofs.Grammar
import Scriptlet.Proofs.Progress

/-! Expressions are read exactly by their rules. What a rule reads without a complaint has a
derivation of its level, and every derivation is read, provided that what follows cannot belong to
it. -/
namespace Scriptlet.Grammar
open Scriptlet.Parser

namespace Level

/-- What a rule looks for after its first operand. -/
def signals : Level → List Kind
  | .assignment => .equal :: compounds.map (·.1)
  | .choice => [.question]
  | .stepped => steps
  | l => l.operators

def all : List Level :=
  [.expression, .assignment, .choice, .disjunction, .conjunction, .equality, .order, .sum, .product,
    .signed, .stepped, .primary]

def continuing (l : Level) : List Kind :=
  (all.dropWhile (· ≠ l)).flatMap signals

def starting (l : Level) : List Kind :=
  let single := [.falseWord, .trueWord, .nilWord, .number, .string, .name, .leftParen]
  if l = .stepped ∨ l = .primary then single else signs ++ single

theorem continuing_of_tighter {l m : Level} (step : l.tighter = some m) :
    ∀ k ∈ m.continuing, k ∈ l.continuing := by
  cases l <;> cases step <;> decide

theorem signals_subset (l : Level) : ∀ k ∈ l.signals, k ∈ l.continuing := by
  cases l <;> decide

theorem mem_continuing {l m : Level} (step : l.tighter = some m) {k : Kind}
    (found : k ∈ l.continuing) : k ∈ l.signals ∨ k ∈ m.continuing := by
  revert found
  cases l <;> cases step <;> revert k <;> decide

theorem signals_of_operators {l : Level} (grouped : l.operators ≠ []) :
    l.signals = l.operators := by
  cases l <;> first | rfl | exact absurd rfl grouped

theorem operator_not_continuing {l m : Level} (step : l.tighter = some m) :
    ∀ k ∈ l.operators, k ∉ m.continuing := by
  cases l <;> cases step <;> decide

theorem join_ne_var (l : Level) {left right : Expr} {operator name : Token} :
    l.join left operator right ≠ .var name := by
  cases l <;> simp [join]

theorem starting_of_tighter {l m : Level} (step : l.tighter = some m) :
    ∀ k ∈ m.starting, k ∈ l.starting := by
  cases l <;> cases step <;> decide

end Level

def Stops (l : Level) (rest : List Token) : Prop :=
  ∀ t ∈ rest.head?, t.kind ∉ l.continuing

/-- What follows belongs to no longer expression of the level. A second step may follow a first,
since only one is ever read. -/
def Halts (l : Level) (rest : List Token) : Prop :=
  ∀ t ∈ rest.head?, t.kind ∈ l.continuing → t.kind ∈ steps

theorem Stops.tighter {l m : Level} {rest : List Token} (step : l.tighter = some m)
    (stops : Stops l rest) : Stops m rest :=
  fun t head found => stops t head (l.continuing_of_tighter step t.kind found)

theorem Stops.not_signal {l : Level} {rest : List Token} (stops : Stops l rest) :
    ∀ t ∈ rest.head?, t.kind ∉ l.signals :=
  fun t head found => stops t head (l.signals_subset t.kind found)

theorem Halts.looser {l m : Level} {rest : List Token} (step : l.tighter = some m)
    (halts : Halts m rest) (absent : ∀ t ∈ rest.head?, t.kind ∉ l.signals) : Halts l rest := by
  intro t head found
  obtain own | inner := l.mem_continuing step found
  · exact absurd own (absent t head)
  · exact halts t head inner

def ruleAt (n : Nat) : Level → Parser Expr
  | .expression => (Rules.within n).expression
  | .assignment => assignment (Rules.within n)
  | .choice => choice (Rules.within n)
  | .disjunction => disjunction (Rules.within n)
  | .conjunction => conjunction (Rules.within n)
  | .equality => equality (Rules.within n)
  | .order => order (Rules.within n)
  | .sum => sum (Rules.within n)
  | .product => product (Rules.within n)
  | .signed => Parser.signed (Rules.within n)
  | .stepped => stepped (Rules.within n)
  | .primary => primary (Rules.within n)

theorem ruleAt_grouped (n : Nat) {l m : Level} (grouped : l.operators ≠ [])
    (step : l.tighter = some m) : ruleAt n l = chain l.operators l.join (ruleAt n m) := by
  cases l <;> cases step <;> first | rfl | exact absurd rfl grouped

theorem advancing_ruleAt (n : Nat) (l : Level) : Advancing (ruleAt n l) := by
  have further := advancing_within n
  have levels := advancing_levels further
  cases l with
  | expression => exact further.expression
  | assignment => exact levels.assignment
  | choice => exact levels.choice
  | disjunction => exact levels.disjunction
  | conjunction => exact levels.conjunction
  | equality => exact levels.equality
  | order => exact levels.order
  | sum => exact levels.sum
  | product => exact levels.product
  | signed => exact levels.signed
  | stepped => exact levels.stepped
  | primary => exact levels.primary

theorem atom?_eq_some_iff {t : Token} {e : Expr} : Expr.atom? t = some e ↔ Atom t e := by
  constructor
  · intro read
    rw [Expr.atom?] at read
    split at read <;> cases read
    · exact .no ‹_›
    · exact .yes ‹_›
    · exact .nil ‹_›
    · exact .number ‹_› ‹_›
    · exact .string ‹_› ‹_›
    · exact .name ‹_›
  · intro atom
    cases atom <;> simp [Expr.atom?, *]

theorem reads_atom {ts rest : List Token} {e : Expr} :
    Reads atom ts e rest ↔ ∃ t, ts = t :: rest ∧ Atom t e := by
  rw [atom, reads_next_bind]
  cases ts with
  | nil => simp
  | cons t ts =>
    cases read : Expr.atom? t with
    | none =>
      have bad : ¬ Atom t e := fun atom => by simp [atom?_eq_some_iff.2 atom] at read
      simp [read, bad]
    | some found =>
      have good := atom?_eq_some_iff.1 read
      simp only [List.head?_cons, Option.bind_some, read, Reads, Step.mk.injEq, Option.some.injEq,
        List.tail_cons, and_true, List.cons.injEq]
      constructor
      · rintro ⟨rfl, rfl⟩
        exact ⟨t, ⟨rfl, rfl⟩, good⟩
      · rintro ⟨u, ⟨rfl, rfl⟩, other⟩
        have same := atom?_eq_some_iff.2 other
        rw [read] at same
        exact ⟨Option.some.inj same, rfl⟩

theorem Atom.starts {t : Token} {e : Expr} (atom : Atom t e) : t.kind ∈ Level.primary.starting := by
  cases atom <;> simp [Level.starting, *]

theorem Atom.not_paren {t : Token} {e : Expr} (atom : Atom t e) : t.kind ≠ .leftParen := by
  cases atom <;> simp [*]

section Soundness

variable {n : Nat} {p : Parser Expr}

/-- What the parser reads has a derivation, and nothing was left that could have been read with it.
-/
def Sound (n : Nat) (l : Level) (p : Parser Expr) : Prop :=
  ∀ ⦃ts rest : List Token⦄ ⦃e : Expr⦄, Reads p ts e rest →
    ∃ used, ts = used ++ rest ∧ Derives n l used e ∧ Halts l rest

theorem sound_primary (expression : Sound n .expression (Rules.within n).expression) :
    Sound n .primary (ruleAt n .primary) := by
  intro ts rest e read
  have halts : Halts .primary rest := fun t _ found => by
    simp [Level.continuing, Level.all, Level.signals, Level.operators] at found
  rw [ruleAt, primary, reads_accept_bind] at read
  obtain ⟨opening, mid, rfl, paren, read⟩ | ⟨-, read⟩ := read
  · simp only [reads_bind, reads_expect, reads_pure] at read
    obtain ⟨inner, last, read, closing, tail, ⟨rfl, paren'⟩, rfl, rfl⟩ := read
    obtain ⟨used, rfl, derived, -⟩ := expression read
    refine ⟨opening :: used ++ [closing], by simp, ?_, halts⟩
    exact .group (by simpa using paren) derived paren'
  · obtain ⟨t, rfl, atom⟩ := reads_atom.1 read
    exact ⟨[t], rfl, .atom atom, halts⟩

theorem sound_stepped (primary : Sound n .primary (ruleAt n .primary)) :
    Sound n .stepped (ruleAt n .stepped) := by
  intro ts rest e read
  have halts : Halts .stepped rest := fun t _ found => found
  rw [ruleAt, stepped, reads_bind] at read
  obtain ⟨operand, mid, first, read⟩ := read
  obtain ⟨used, rfl, derived, -⟩ := primary first
  rw [reads_accept_bind] at read
  obtain ⟨operator, last, rfl, stepping, read⟩ | ⟨-, read⟩ := read
  · obtain ⟨rfl, rfl⟩ := reads_pure.1 read
    exact ⟨used ++ [operator], by simp, .step derived stepping, halts⟩
  · obtain ⟨rfl, rfl⟩ := reads_pure.1 read
    exact ⟨used, rfl, .plain rfl derived, halts⟩

theorem sound_grouped {l m : Level} (grouped : l.operators ≠ []) (step : l.tighter = some m)
    (operand : Sound n m (ruleAt n m)) : Sound n l (ruleAt n l) := by
  -- The loop is entered with a left operand already derived; each round makes it longer.
  have loop : ∀ (mid : List Token) {rest xs : List Token} {left e : Expr}, Derives n l xs left →
      Halts m mid → Reads (chainRest l.operators l.join (ruleAt n m) left) mid e rest →
      ∃ used, mid = used ++ rest ∧ Derives n l (xs ++ used) e ∧ Halts l rest := by
    intro mid
    induction length : mid.length using Nat.strongRecOn generalizing mid with
    | ind size ih =>
      subst length
      intro rest xs left e derived halts read
      by_cases found : ∃ t ∈ mid.head?, t.kind ∈ l.operators
      · obtain ⟨operator, head, found⟩ := found
        obtain ⟨tail, rfl⟩ := List.head?_eq_some_iff.1 head
        rw [Reads, chainRest_of_operator (advancing_ruleAt n m).toOrderly left found] at read
        obtain ⟨right, later, second, again⟩ := reads_bind.1 read
        obtain ⟨used, rfl, next, halts⟩ := operand second
        have longer := Derives.joined step derived found next
        have shorter : later.length < (operator :: (used ++ later)).length := by
          simp only [List.length_cons, List.length_append]
          omega
        obtain ⟨more, rfl, whole, halts⟩ := ih later.length shorter later rfl longer halts again
        exact ⟨operator :: used ++ more, by simp, by simpa using whole, halts⟩
      · have absent : ∀ t ∈ mid.head?, t.kind ∉ l.operators := fun t head own =>
          found ⟨t, head, own⟩
        rw [Reads, chainRest_of_other left absent] at read
        cases read
        refine ⟨[], rfl, by simpa using derived, halts.looser step ?_⟩
        rwa [Level.signals_of_operators grouped]
  intro ts rest e read
  rw [ruleAt_grouped n grouped step, chain_eq, reads_bind] at read
  obtain ⟨left, mid, first, read⟩ := read
  obtain ⟨used, rfl, derived, halts⟩ := operand first
  obtain ⟨more, rfl, whole, halts⟩ := loop mid (.plain step derived) halts read
  exact ⟨used ++ more, by simp, whole, halts⟩

theorem sound_signed (stepped : Sound n .stepped (ruleAt n .stepped))
    (deeper : ∀ k, n = k + 1 → Sound k .signed (ruleAt k .signed)) :
    Sound n .signed (ruleAt n .signed) := by
  intro ts rest e read
  rw [ruleAt, Parser.signed, reads_accept_bind] at read
  obtain ⟨operator, mid, rfl, signing, read⟩ | ⟨-, read⟩ := read
  · obtain ⟨right, last, read, value⟩ := reads_bind.1 read
    obtain ⟨rfl, rfl⟩ := reads_pure.1 value
    cases n with
    | zero => exact absurd read not_reads_fail
    | succ k =>
      obtain ⟨used, rfl, derived, halts⟩ := deeper k rfl read
      exact ⟨operator :: used, rfl, .sign signing derived, halts⟩
  · obtain ⟨used, rfl, derived, halts⟩ := stepped read
    refine ⟨used, rfl, .plain rfl derived, halts.looser rfl ?_⟩
    simp [Level.signals, Level.operators]

theorem sound_choice (disjunction : Sound n .disjunction (ruleAt n .disjunction))
    (deeper : ∀ k, n = k + 1 → Sound k .choice (ruleAt k .choice)) :
    Sound n .choice (ruleAt n .choice) := by
  intro ts rest e read
  rw [ruleAt, Parser.choice, reads_bind] at read
  obtain ⟨condition, mid, first, read⟩ := read
  obtain ⟨cs, rfl, derived, halts⟩ := disjunction first
  rw [reads_accept_bind] at read
  obtain ⟨question, mid, rfl, asked, read⟩ | ⟨absent, read⟩ := read
  · simp only [reads_bind, reads_expect, reads_pure] at read
    obtain ⟨consequent, mid, second, colon, mid, ⟨rfl, parted⟩, alternate, mid, third, rfl,
      rfl⟩ := read
    obtain ⟨xs, rfl, consequent, -⟩ := disjunction second
    cases n with
    | zero => exact absurd third not_reads_fail
    | succ k =>
      obtain ⟨es, rfl, alternate, halts⟩ := deeper k rfl third
      refine ⟨cs ++ question :: xs ++ colon :: es, by simp, ?_, halts⟩
      exact .choice derived (by simpa using asked) consequent parted alternate
  · obtain ⟨rfl, rfl⟩ := reads_pure.1 read
    exact ⟨cs, rfl, .plain rfl derived, halts.looser rfl absent⟩

theorem derives_var {l : Level} {ts : List Token} {name : Token}
    (derived : Derives n l ts (.var name)) : ts = [name] ∧ name.kind = .name := by
  generalize whole : Expr.var name = e at derived
  induction derived with
  | deeper _ ih => exact ih whole
  | plain _ _ ih => exact ih whole
  | joined => exact absurd whole.symm (Level.join_ne_var _)
  | atom atom =>
    cases atom <;> simp at whole
    subst whole
    exact ⟨rfl, ‹_›⟩
  | _ => simp at whole

theorem assigned_derives {name operator : Token} {ts : List Token} {value : Expr}
    (named : name.kind = .name)
    (assigning : operator.kind ∈
      [.equal, .plusEqual, .minusEqual, .starEqual, .slashEqual, .percentEqual])
    (derived : Derives n .expression ts value) :
    Derives n .assignment (name :: operator :: ts) (Expr.assigned name operator value) := by
  by_cases plain : operator.kind = .equal
  · simp only [Expr.assigned, Expr.compound?, plain]
    exact .assign named plain derived
  · simp only [List.mem_cons, plain, List.not_mem_nil, or_false, false_or] at assigning
    obtain kind | kind | kind | kind | kind := assigning <;>
      simp only [Expr.assigned, Expr.compound?, kind] <;>
      exact .update named (by simp [compounds, kind]) derived

theorem sound_assignment (choice : Sound n .choice (ruleAt n .choice))
    (expression : Sound n .expression (Rules.within n).expression) :
    Sound n .assignment (ruleAt n .assignment) := by
  intro ts rest e read
  rw [ruleAt, Parser.assignment, reads_bind] at read
  obtain ⟨target, mid, first, read⟩ := read
  obtain ⟨cs, rfl, derived, halts⟩ := choice first
  rw [reads_accept_bind] at read
  obtain ⟨operator, mid, rfl, assigning, read⟩ | ⟨absent, read⟩ := read
  · obtain ⟨value, mid, second, final⟩ := reads_bind.1 read
    obtain ⟨vs, rfl, assigned, halts⟩ := expression second
    cases target with
    | var name =>
      obtain ⟨rfl, named⟩ := derives_var derived
      obtain ⟨rfl, rfl⟩ := reads_pure.1 final
      exact ⟨name :: operator :: vs, rfl, assigned_derives named assigning assigned, halts⟩
    | _ =>
      obtain ⟨_, _, complained, -⟩ := reads_bind.1 final
      exact absurd complained not_reads_complain
  · obtain ⟨rfl, rfl⟩ := reads_pure.1 read
    exact ⟨cs, rfl, .plain rfl derived, halts.looser rfl absent⟩

/-- What a rule reads without a complaint has a derivation. -/
theorem sound_ruleAt (n : Nat) (l : Level) : Sound n l (ruleAt n l) := by
  induction n using Nat.strongRecOn generalizing l with
  | ind n ih =>
    have expression : Sound n .expression (Rules.within n).expression := by
      cases n with
      | zero => exact fun _ _ _ read => absurd read not_reads_fail
      | succ k =>
        intro ts rest e read
        obtain ⟨used, rfl, derived, halts⟩ := ih k (Nat.lt_succ_self k) .assignment read
        exact ⟨used, rfl, .deeper derived, halts⟩
    have primary := sound_primary expression
    have stepped := sound_stepped primary
    have signed := sound_signed stepped fun k below => ih k (by omega) .signed
    have product : Sound n .product (ruleAt n .product) := sound_grouped (by decide) rfl signed
    have sum : Sound n .sum (ruleAt n .sum) := sound_grouped (by decide) rfl product
    have order : Sound n .order (ruleAt n .order) := sound_grouped (by decide) rfl sum
    have equality : Sound n .equality (ruleAt n .equality) := sound_grouped (by decide) rfl order
    have conjunction : Sound n .conjunction (ruleAt n .conjunction) :=
      sound_grouped (by decide) rfl equality
    have disjunction : Sound n .disjunction (ruleAt n .disjunction) :=
      sound_grouped (by decide) rfl conjunction
    have choice := sound_choice disjunction fun k below => ih k (by omega) .choice
    cases l with
    | expression => exact expression
    | assignment => exact sound_assignment choice expression
    | choice => exact choice
    | disjunction => exact disjunction
    | conjunction => exact conjunction
    | equality => exact equality
    | order => exact order
    | sum => exact sum
    | product => exact product
    | signed => exact signed
    | stepped => exact stepped
    | primary => exact primary

end Soundness

theorem Derives.starts {n : Nat} {l : Level} {ts : List Token} {e : Expr}
    (derived : Derives n l ts e) : ∃ t us, ts = t :: us ∧ t.kind ∈ l.starting := by
  induction derived with
  | deeper _ ih => exact ih
  | plain step _ ih =>
    obtain ⟨t, us, rfl, start⟩ := ih
    exact ⟨t, us, rfl, Level.starting_of_tighter step _ start⟩
  | assign named _ _ _ => exact ⟨_, _, rfl, by simp [named, Level.starting, signs]⟩
  | update named _ _ _ => exact ⟨_, _, rfl, by simp [named, Level.starting, signs]⟩
  | choice _ _ _ _ _ ih _ _ =>
    obtain ⟨t, us, rfl, start⟩ := ih
    exact ⟨t, _, rfl, start⟩
  | joined _ _ _ _ ih _ =>
    obtain ⟨t, us, rfl, start⟩ := ih
    exact ⟨t, _, rfl, start⟩
  | sign signing _ _ => exact ⟨_, _, rfl, by simp [Level.starting, signing]⟩
  | step _ _ ih =>
    obtain ⟨t, us, rfl, start⟩ := ih
    exact ⟨t, _, rfl, start⟩
  | group paren _ _ _ => exact ⟨_, _, rfl, by simp [paren, Level.starting]⟩
  | atom atom => exact ⟨_, [], rfl, atom.starts⟩

theorem Derives.head {n : Nat} {l : Level} {ts : List Token} {e : Expr}
    (derived : Derives n l ts e) (rest : List Token) :
    ∀ t ∈ (ts ++ rest).head?, t.kind ∈ l.starting := by
  obtain ⟨t, us, rfl, start⟩ := derived.starts
  simpa using start

section Completeness

variable {n : Nat} {ts rest : List Token} {e : Expr}

/-- Whatever the loop of the level reads from the operand on, the level reads as a whole. -/
def Leads (n : Nat) (l : Level) (ts : List Token) (e : Expr) : Prop :=
  ∀ m, l.tighter = some m → ∀ rest whole last, Stops m rest →
    Reads (chainRest l.operators l.join (ruleAt n m) e) rest whole last →
    Reads (ruleAt n l) (ts ++ rest) whole last

def Complete (n : Nat) (l : Level) (ts : List Token) (e : Expr) : Prop :=
  ∀ rest, Stops l rest → Reads (ruleAt n l) (ts ++ rest) e rest

theorem Leads.complete {l m : Level} (grouped : l.operators ≠ []) (step : l.tighter = some m)
    (leads : Leads n l ts e) : Complete n l ts e := by
  intro rest stops
  have absent : ∀ t ∈ rest.head?, t.kind ∉ l.operators := by
    rw [← Level.signals_of_operators grouped]
    exact stops.not_signal
  exact leads m step rest e rest (stops.tighter step) (chainRest_of_other e absent)

theorem leads_plain {l m : Level} (grouped : l.operators ≠ []) (step : l.tighter = some m)
    (operand : Complete n m ts e) : Leads n l ts e := by
  intro m' step' rest whole last stops read
  cases step.symm.trans step'
  rw [ruleAt_grouped n grouped step, chain_eq, reads_bind]
  exact ⟨e, rest, operand rest stops, read⟩

theorem leads_joined {l m : Level} {operator : Token} {xs ys : List Token} {left right : Expr}
    (step : l.tighter = some m) (found : operator.kind ∈ l.operators) (before : Leads n l xs left)
    (operand : Complete n m ys right) :
    Leads n l (xs ++ operator :: ys) (l.join left operator right) := by
  intro m' step' rest whole last stops read
  cases step.symm.trans step'
  have parted : Stops m (operator :: (ys ++ rest)) := by
    simpa [Stops] using Level.operator_not_continuing step _ found
  have round : Reads (chainRest l.operators l.join (ruleAt n m) left) (operator :: (ys ++ rest))
      whole last := by
    rw [Reads, chainRest_of_operator (advancing_ruleAt n m).toOrderly left found]
    exact reads_bind.2 ⟨right, rest, operand rest stops, read⟩
  have whole := before m step _ whole last parted round
  simpa using whole

theorem complete_assign {name operator : Token} {value : Expr}
    (assigning : operator.kind ∈
      [.equal, .plusEqual, .minusEqual, .starEqual, .slashEqual, .percentEqual])
    (target : Complete n .choice [name] (.var name)) (derived : Complete n .expression ts value) :
    Complete n .assignment (name :: operator :: ts) (Expr.assigned name operator value) := by
  intro rest stops
  have parted : Stops .choice (operator :: (ts ++ rest)) := by
    have outside : ∀ k ∈ [Kind.equal, .plusEqual, .minusEqual, .starEqual, .slashEqual,
        .percentEqual], k ∉ Level.choice.continuing := by decide
    simpa [Stops] using outside _ assigning
  rw [ruleAt, assignment, reads_bind]
  refine ⟨.var name, operator :: (ts ++ rest), target _ parted, ?_⟩
  rw [reads_accept_bind]
  refine .inl ⟨operator, ts ++ rest, rfl, assigning,
    reads_bind.2 ⟨value, rest, derived rest ?_, ?_⟩⟩
  · exact stops
  · exact reads_pure.2 ⟨rfl, rfl⟩

theorem complete_choice {question colon : Token} {cs es : List Token} {c t alternate : Expr}
    (asked : question.kind = .question) (parted : colon.kind = .colon)
    (first : Complete (n + 1) .disjunction cs c) (second : Complete (n + 1) .disjunction ts t)
    (third : Complete n .choice es alternate) :
    Complete (n + 1) .choice (cs ++ question :: ts ++ colon :: es) (.choice c t alternate) := by
  intro rest stops
  have atQuestion : Stops .disjunction (question :: (ts ++ colon :: (es ++ rest))) := by
    simp [Stops, asked]
    decide
  have atColon : Stops .disjunction (colon :: (es ++ rest)) := by
    simp [Stops, parted]
    decide
  simp only [List.append_assoc, List.cons_append]
  rw [ruleAt, choice, reads_bind]
  refine ⟨c, _, first _ atQuestion, ?_⟩
  rw [reads_accept_bind]
  refine .inl ⟨question, _, rfl, by simp [asked], ?_⟩
  simp only [reads_bind, reads_expect, reads_pure]
  exact ⟨t, _, second _ atColon, colon, _, ⟨rfl, parted⟩, alternate, rest,
    third rest stops, rfl, rfl⟩

theorem complete_plain {l m : Level} (step : l.tighter = some m) (derived : Derives n m ts e)
    (operand : Complete n m ts e) : Complete n l ts e := by
  intro rest stops
  have within := operand rest (stops.tighter step)
  have absent := stops.not_signal
  cases l <;> cases step
  case assignment | choice | stepped =>
    refine reads_bind.2 ⟨e, rest, within, reads_accept_bind.2 (.inr ⟨absent, ?_⟩)⟩
    exact reads_pure.2 ⟨rfl, rfl⟩
  case signed =>
    have unsigned : ∀ t ∈ (ts ++ rest).head?, t.kind ∉ [Kind.minus, .bang] := by
      intro t head
      have start := derived.head rest t head
      revert start
      generalize t.kind = k
      revert k
      decide
    exact reads_accept_bind.2 (.inr ⟨unsigned, within⟩)
  all_goals exact (leads_plain (by decide) rfl operand).complete (by decide) rfl rest stops

theorem complete_sign {operator : Token} {right : Expr} (signing : operator.kind ∈ signs)
    (operand : Complete n .signed ts right) :
    Complete (n + 1) .signed (operator :: ts) (.unary operator right) := by
  intro rest stops
  refine reads_accept_bind.2 (.inl ⟨operator, ts ++ rest, rfl, signing, ?_⟩)
  exact reads_bind.2 ⟨right, rest, operand rest stops, reads_pure.2 ⟨rfl, rfl⟩⟩

theorem complete_step {operator : Token} {operand : Expr} (stepping : operator.kind ∈ steps)
    (primary : Complete n .primary ts operand) :
    Complete n .stepped (ts ++ [operator]) (.step operand operator) := by
  intro rest _
  have stops : Stops .primary (operator :: rest) := fun t _ found => by
    simp [Level.continuing, Level.all, Level.signals, Level.operators] at found
  rw [List.append_assoc]
  refine reads_bind.2 ⟨operand, operator :: rest, primary _ stops, ?_⟩
  refine reads_accept_bind.2 (.inl ⟨operator, rest, rfl, stepping, ?_⟩)
  exact reads_pure.2 ⟨rfl, rfl⟩

theorem complete_group {opening closing : Token} (opened : opening.kind = .leftParen)
    (closed : closing.kind = .rightParen) (inner : Complete n .expression ts e) :
    Complete n .primary (opening :: ts ++ [closing]) (.group e) := by
  intro rest _
  have stops : Stops .expression (closing :: rest) := by
    simp [Stops, closed]
    decide
  rw [List.append_assoc]
  refine reads_accept_bind.2 (.inl ⟨opening, _, rfl, by simp [opened], ?_⟩)
  simp only [reads_bind, reads_expect, reads_pure]
  exact ⟨e, closing :: rest, inner _ stops, closing, rest, ⟨rfl, closed⟩, rfl, rfl⟩

theorem complete_atom {t : Token} (atom : Atom t e) : Complete n .primary [t] e := by
  intro rest _
  have bare : ∀ u ∈ (t :: rest).head?, u.kind ∉ [Kind.leftParen] := by simpa using atom.not_paren
  exact reads_accept_bind.2 (.inr ⟨bare, reads_atom.2 ⟨t, rfl, atom⟩⟩)

theorem complete_name {name : Token} (named : name.kind = .name) :
    Complete n .choice [name] (.var name) := by
  have climb {l m : Level} (step : l.tighter = some m)
      (below : Derives n m [name] (.var name) ∧ Complete n m [name] (.var name)) :
      Derives n l [name] (.var name) ∧ Complete n l [name] (.var name) :=
    ⟨.plain step below.1, complete_plain step below.1 below.2⟩
  have stepped := climb (l := .stepped) rfl ⟨.atom (.name named), complete_atom (.name named)⟩
  have product := climb (l := .product) rfl (climb rfl stepped)
  have order := climb (l := .order) rfl (climb rfl product)
  have conjunction := climb (l := .conjunction) rfl (climb rfl order)
  exact (climb rfl (climb rfl conjunction)).2

theorem assigned_of_equal {name equal : Token} (plain : equal.kind = .equal) (value : Expr) :
    Expr.assigned name equal value = .assign name value := by
  simp [Expr.assigned, Expr.compound?, plain]

theorem assigned_of_compound {name operator : Token} {kind : Kind} {text : String}
    (found : (operator.kind, kind, text) ∈ compounds) (value : Expr) :
    Expr.assigned name operator value =
      .assign name (.binary (.var name) ⟨kind, text, none, operator.pos⟩ value) := by
  simp only [compounds, List.mem_cons, Prod.mk.injEq, List.not_mem_nil, or_false] at found
  obtain ⟨same, rfl, rfl⟩ | ⟨same, rfl, rfl⟩ | ⟨same, rfl, rfl⟩ | ⟨same, rfl, rfl⟩ |
    ⟨same, rfl, rfl⟩ := found <;> simp [Expr.assigned, Expr.compound?, same]

theorem compound_assigns {kind plain : Kind} {text : String}
    (found : (kind, plain, text) ∈ compounds) :
    kind ∈ [Kind.equal, .plusEqual, .minusEqual, .starEqual, .slashEqual, .percentEqual] := by
  have names : kind ∈ compounds.map (·.1) := List.mem_map_of_mem found
  exact List.mem_cons_of_mem _ names

/-- Every derivation is read; an operand of a grouped level may also be followed by an operator of
the same level, and then the reading goes on from there. -/
theorem complete_leads {l : Level} (derived : Derives n l ts e) :
    Complete n l ts e ∧ (l.operators ≠ [] → Leads n l ts e) := by
  have alone {l : Level} {ts : List Token} {e : Expr} {n : Nat} (none : l.operators = []) :
      l.operators ≠ [] → Leads n l ts e := fun grouped => absurd none grouped
  induction derived with
  | deeper _ ih => exact ⟨ih.1, alone rfl⟩
  | plain step derived ih =>
    exact ⟨complete_plain step derived ih.1, fun grouped => leads_plain grouped step ih.1⟩
  | assign named plain _ ih =>
    rw [← assigned_of_equal plain]
    exact ⟨complete_assign (by simp [plain]) (complete_name named) ih.1, alone rfl⟩
  | update named found _ ih =>
    rw [← assigned_of_compound found]
    exact ⟨complete_assign (compound_assigns found) (complete_name named) ih.1, alone rfl⟩
  | choice _ asked _ parted _ first second third =>
    exact ⟨complete_choice asked parted first.1 second.1 third.1, alone rfl⟩
  | joined step _ found _ left right =>
    have grouped := List.ne_nil_of_mem found
    have leads := leads_joined step found (left.2 grouped) right.1
    exact ⟨leads.complete grouped step, fun _ => leads⟩
  | sign signing _ ih => exact ⟨complete_sign signing ih.1, alone rfl⟩
  | step _ stepping ih => exact ⟨complete_step stepping ih.1, alone rfl⟩
  | group opened _ closed ih => exact ⟨complete_group opened closed ih.1, alone rfl⟩
  | atom atom => exact ⟨complete_atom atom, alone rfl⟩

end Completeness

end Scriptlet.Grammar
