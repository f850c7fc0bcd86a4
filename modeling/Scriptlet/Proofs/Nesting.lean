import Scriptlet.Proofs.Progress

/-! How deep trees nest. What a reader complains about and what it gives are told together. If a chain of
operators counts as one level with all its operands, then each level of rules adds at most nine to how
deep a tree nests, and so the limit on levels bounds it. -/
namespace Scriptlet

namespace Expr

/-- The most nodes on a way down, where a step from an operator to its left operand counts nothing. -/
def nesting : Expr → Nat
  | .literal _ => 1
  | .var _ => 1
  | .assign _ value => value.nesting + 1
  | .group inner => inner.nesting + 1
  | .unary _ right => right.nesting + 1
  | .binary left _ right => max left.nesting (right.nesting + 1)
  | .logical left _ right => max left.nesting (right.nesting + 1)
  | .choice condition consequent alternate =>
    max condition.nesting (max consequent.nesting alternate.nesting) + 1
  | .step operand _ => operand.nesting + 1

theorem nesting_of_atom? {t : Token} {e : Expr} (atom : atom? t = some e) : e.nesting = 1 := by
  unfold atom? at atom
  split at atom <;> cases atom <;> rfl

theorem nesting_assigned (name operator : Token) (value : Expr) :
    (assigned name operator value).nesting ≤ value.nesting + 2 := by
  unfold assigned
  split <;> simp only [nesting] <;> omega

end Expr

namespace Stmt

mutual

def nesting : Stmt → Nat
  | .expr e => e.nesting + 1
  | .print _ e => e.nesting + 1
  | .declare _ initial => (initial.map Expr.nesting).getD 0 + 1
  | .block body => nestings body + 1
  | .branch condition consequent alternate =>
    max condition.nesting (max (nestings consequent) (nestings alternate)) + 1
  | .loop condition body => max condition.nesting body.nesting + 1
  | .leave _ => 1

def nestings : List Stmt → Nat
  | [] => 0
  | s :: rest => max s.nesting (nestings rest)

end

theorem nestings_le {n : Nat} {body : List Stmt} :
    nestings body ≤ n ↔ ∀ s ∈ body, s.nesting ≤ n := by
  induction body with
  | nil => simp [nestings]
  | cons s rest ih => rw [nestings, Nat.max_le, ih, List.forall_mem_cons]

end Stmt

namespace Parser

variable {α β : Type}

/-- Every mistake that a reader complains about is of one sort, and every value it gives of another. -/
structure Keeps (M : Mistake → Prop) (Q : α → Prop) (p : Parser α) : Prop where
  mistakes : ∀ ts, ∀ c ∈ (p ts).complaints, M c.mistake
  values : ∀ ts, ∀ a ∈ (p ts).value, Q a

namespace Keeps

variable {M : Mistake → Prop} {P Q : α → Prop} {R : β → Prop} {p : Parser α} {f : α → Parser β}

theorem pure {a : α} (holds : Q a) : Keeps M Q (pure a : Parser α) where
  mistakes _ _ member := by simp [pure_apply] at member
  values _ b value := by
    obtain rfl : a = b := by simpa [pure_apply] using value
    exact holds

theorem bind (first : Keeps M Q p) (next : ∀ a, Q a → Keeps M R (f a)) : Keeps M R (p >>= f) where
  mistakes ts c member := by
    have before := first.mistakes ts
    have value := first.values ts
    match read : p ts with
    | ⟨none, mid, complaints⟩ =>
      rw [read] at before
      rw [bind_of_none f read] at member
      exact before c member
    | ⟨some a, mid, complaints⟩ =>
      rw [read] at before value
      rw [bind_of_some f read] at member
      obtain early | late := List.mem_append.1 member
      · exact before c early
      · exact (next a (value a rfl)).mistakes mid c late
  values ts b given := by
    have value := first.values ts
    match read : p ts with
    | ⟨none, mid, complaints⟩ =>
      rw [bind_of_none f read] at given
      nomatch given
    | ⟨some a, mid, complaints⟩ =>
      rw [read] at value
      rw [bind_of_some f read] at given
      exact (next a (value a rfl)).values mid b given

theorem imp {N : Mistake → Prop} (keeps : Keeps M P p) (mistakes : ∀ m, M m → N m)
    (values : ∀ a, P a → Q a) : Keeps N Q p where
  mistakes ts c member := mistakes _ (keeps.mistakes ts c member)
  values ts a value := values a (keeps.values ts a value)

theorem fail {m : Mistake} (holds : M m) : Keeps M Q (fail m : Parser α) where
  mistakes _ c member := by
    obtain rfl : c = _ := by simpa [Parser.fail] using member
    exact holds
  values _ _ value := by simp [Parser.fail] at value

theorem complain {t : Token} {m : Mistake} (holds : M m) :
    Keeps M (fun _ => True) (complain t m) where
  mistakes _ c member := by
    obtain rfl : c = _ := by simpa [Parser.complain] using member
    exact holds
  values _ _ _ := trivial

theorem next : Keeps M (fun _ => True) next? where
  mistakes _ _ member := by simp [next?] at member
  values _ _ _ := trivial

theorem remaining : Keeps M (fun _ => True) remaining where
  mistakes _ _ member := by simp [Parser.remaining] at member
  values _ _ _ := trivial

theorem accept_bind {kinds : List Kind} {f : Option Token → Parser β}
    (found : ∀ t, t.kind ∈ kinds → Keeps M R (f (some t))) (absent : Keeps M R (f none)) :
    Keeps M R (accept kinds >>= f) where
  mistakes ts := by
    obtain ⟨t, rest, -, member, read⟩ | ⟨-, read⟩ := accept_bind_cases kinds f ts
    · rw [read]
      exact (found t member).mistakes rest
    · rw [read]
      exact absent.mistakes ts
  values ts := by
    obtain ⟨t, rest, -, member, read⟩ | ⟨-, read⟩ := accept_bind_cases kinds f ts
    · rw [read]
      exact (found t member).values rest
    · rw [read]
      exact absent.values ts

theorem atom {Q : Expr → Prop} (holds : M .expression)
    (atoms : ∀ {t e}, Expr.atom? t = some e → Q e) : Keeps M Q atom where
  mistakes ts := by
    obtain ⟨t, rest, e, -, -, read⟩ | failed := atom_cases ts
    · simp [read]
    · rw [failed]
      exact (fail (Q := Q) holds).mistakes ts
  values ts := by
    obtain ⟨t, rest, e, -, atom, read⟩ | failed := atom_cases ts
    · rw [read]
      rintro _ ⟨⟩
      exact atoms atom
    · rw [failed]
      exact (fail holds).values ts

theorem recover {resume : List Token → List Token} (inner : Keeps M Q p) :
    Keeps M (fun found => ∀ a ∈ found, Q a) (recover resume p) where
  mistakes ts c member := by
    have before := inner.mistakes ts
    simp only [Parser.recover] at member
    split at member <;> rename_i read <;> rw [read] at before <;> exact before c member
  values ts found value := by
    have before := inner.values ts
    simp only [Parser.recover] at value
    split at value <;> rename_i read <;> rw [read] at before
    · obtain rfl := Option.some.inj value
      exact before
    · obtain rfl := Option.some.inj value
      simp

end Keeps

theorem postcondition_keeps {M : Mistake → Prop} (grave : ∀ m ∉ Mistake.mild, M m)
    (target : M .target) : Postcondition (fun _ => True) (Keeps M) where
  pure := .pure
  bind := .bind
  fail {_ _ m} other := .fail (grave m other)
  accept_bind found absent := .accept_bind (fun t => found t trivial) absent
  next := .next
  remaining := .remaining
  target _ := .complain target

end Parser

def TreeRelation.nesting : TreeRelation where
  token := Eq
  expr n e d := e.nesting ≤ n ∧ e = d
  stmt n s r := s.nesting ≤ n ∧ s = r
  kind := congrArg Token.kind
  expr_mono le both := ⟨Nat.le_trans both.1 le, both.2⟩
  truth := ⟨Nat.le_refl 1, rfl⟩
  group := by
    rintro _ _ _ ⟨bound, rfl⟩
    exact ⟨Nat.succ_le_succ bound, rfl⟩
  unary := by
    rintro _ _ _ _ _ rfl _ ⟨bound, rfl⟩
    exact ⟨Nat.succ_le_succ bound, rfl⟩
  step := by
    rintro _ _ _ _ _ rfl _ ⟨bound, rfl⟩
    exact ⟨Nat.succ_le_succ bound, rfl⟩
  binary := by
    rintro _ _ _ _ _ _ _ rfl _ ⟨left, rfl⟩ ⟨right, rfl⟩
    exact ⟨Nat.max_le.2 ⟨left, Nat.succ_le_succ right⟩, rfl⟩
  logical := by
    rintro _ _ _ _ _ _ _ rfl _ ⟨left, rfl⟩ ⟨right, rfl⟩
    exact ⟨Nat.max_le.2 ⟨left, Nat.succ_le_succ right⟩, rfl⟩
  choice := by
    rintro _ _ _ _ _ _ _ ⟨first, rfl⟩ ⟨second, rfl⟩ ⟨third, rfl⟩
    exact ⟨Nat.succ_le_succ (Nat.max_le.2 ⟨first, Nat.max_le.2 ⟨second, third⟩⟩), rfl⟩
  target both := Expr.target_of_eq both.2
  assigned := by
    rintro _ _ _ _ _ _ _ _ ⟨-, ⟨⟩⟩ rfl ⟨bound, rfl⟩
    exact ⟨Nat.le_trans (Expr.nesting_assigned ..) (Nat.add_le_add_right bound 2), rfl⟩
  stmt_mono le both := ⟨Nat.le_trans both.1 le, both.2⟩
  expression := by
    rintro _ _ _ ⟨bound, rfl⟩
    exact ⟨Nat.succ_le_succ bound, rfl⟩
  print := by
    rintro _ _ _ _ _ rfl _ ⟨bound, rfl⟩
    exact ⟨Nat.succ_le_succ bound, rfl⟩
  declare := by
    rintro n _ _ _ _ rfl _ initial
    cases initial with
    | none => exact ⟨Nat.le_add_left 1 n, rfl⟩
    | some both => exact ⟨Nat.succ_le_succ both.1, by rw [both.2]⟩
  block := by
    intro _ _ _ each
    obtain ⟨bounds, rfl⟩ := same_of_forall₂ each
    exact ⟨Nat.succ_le_succ (Stmt.nestings_le.2 bounds), rfl⟩
  branch := by
    rintro _ _ _ _ _ _ _ ⟨bound, rfl⟩ first second
    obtain ⟨small, rfl⟩ := same_of_forall₂ first
    obtain ⟨small', rfl⟩ := same_of_forall₂ second
    refine ⟨Nat.succ_le_succ (Nat.max_le.2 ⟨bound, Nat.max_le.2 ⟨?_, ?_⟩⟩), rfl⟩
    · exact Stmt.nestings_le.2 small
    · exact Stmt.nestings_le.2 small'
  loop := by
    rintro _ _ _ _ _ ⟨bound, rfl⟩ ⟨small, rfl⟩
    exact ⟨Nat.succ_le_succ (Nat.max_le.2 ⟨bound, small⟩), rfl⟩

namespace Parser

theorem thorough_nesting :
    Thorough .nesting fun _ _ A p _ => Keeps (fun _ => True) (fun a => ∃ b, A a b) p :=
  (postcondition_keeps (fun _ _ => trivial) trivial).thorough (fun _ _ => rfl) (fun _ => trivial)
    (.atom trivial fun atom => ⟨_, Nat.le_of_eq (Expr.nesting_of_atom? atom), rfl⟩)
    (fun _ => .complain trivial) (fun _ => .recover) fun same _ => ⟨Nat.le_refl 1, by rw [same]⟩

/-- Each level of rules adds at most nine to what an expression nests. -/
theorem nesting_expression (depth : Nat) : Keeps (fun _ => True) (·.nesting ≤ 9 * depth)
    (Rules.within depth).expression :=
  (thorough_nesting.within depth).expression.imp (fun _ => id) fun _ ⟨_, bound, _⟩ => bound

theorem nesting_program : Keeps (fun _ => True)
    (fun found => Stmt.nestings (found.filterMap id) ≤ 9 * nestingLimit + 1) program := by
  refine thorough_nesting.program.imp (fun _ => id) fun found ⟨_, each⟩ => ?_
  have read := List.rel_filterMap (fun _ _ same => same) each
  exact Stmt.nestings_le.2 (same_of_forall₂ read).1

end Parser

end Scriptlet
