import Scriptlet.Proofs.Progress

/-! Expressions end by themselves. If what follows some tokens begins with a token that no expression
takes, then an expression is read from them as if nothing followed: the same tree with the same
complaints, or a failure at the same place. So it does not matter to an expression whether a semicolon
or the end comes after it. -/
namespace Scriptlet

/-- Tokens of which the first, if there is one, belongs to no expression. -/
def Fence (us : List Token) : Prop :=
  ∀ t ∈ us.head?, t.kind ∉ Kind.inExpressions

/-- The second step does what the first does, with more tokens left over. What a yield complains about
are tokens; a failure may complain about the end, where the other sees what follows. -/
inductive Step.Within {α : Type} (us : List Token) : Step α → Step α → Prop
  | yield {a : α} {rest : List Token} {cs : List Complaint} : (∀ c ∈ cs, c.token?.isSome) →
      Within us ⟨some a, rest, cs⟩ ⟨some a, rest ++ us, cs⟩
  | failure {rest : List Token} {cs cs' : List Complaint} :
      Within us ⟨none, rest, cs⟩ ⟨none, rest ++ us, cs'⟩

namespace Parser

variable {α β : Type} {us : List Token} {p : Parser α} {f : α → Parser β}

/-- A reader to which it is all the same whether these tokens follow. -/
def Fenced (us : List Token) (p : Parser α) : Prop :=
  ∀ ts, Step.Within us (p ts) (p (ts ++ us))

namespace Fenced

theorem pure (a : α) : Fenced us (pure a : Parser α) :=
  fun _ => .yield (by simp)

theorem fail (m : Mistake) : Fenced us (fail m : Parser α) :=
  fun _ => .failure

theorem complain (t : Token) (m : Mistake) : Fenced us (complain t m) :=
  fun _ => .yield (by simp)

theorem bind (first : Fenced us p) (next : ∀ a, Yields p a → Fenced us (f a)) :
    Fenced us (p >>= f) := by
  intro ts
  have step := first ts
  match read : p ts, further : p (ts ++ us), step with
  | _, _, .failure =>
    rw [bind_of_none f read, bind_of_none f further]
    exact .failure
  | _, _, @Step.Within.yield _ _ a rest _ placed =>
    rw [bind_of_some f read, bind_of_some f further]
    have last := next a ⟨ts, by rw [read]⟩ rest
    generalize f a rest = x, f a (rest ++ us) = y at last
    cases last with
    | failure => exact .failure
    | yield placed' => exact .yield (List.forall_mem_append.2 ⟨placed, placed'⟩)

theorem accept_bind {kinds : List Kind} (apart : ∀ t ∈ us.head?, t.kind ∉ kinds)
    {f : Option Token → Parser β} (found : ∀ t, t.kind ∈ kinds → Fenced us (f (some t)))
    (none : Fenced us (f none)) : Fenced us (accept kinds >>= f) := by
  intro ts
  match ts with
  | [] =>
    rw [accept_bind_not_mem f (by simp), List.nil_append, accept_bind_not_mem f apart]
    exact none []
  | t :: ts =>
    by_cases member : t.kind ∈ kinds
    · rw [List.cons_append, accept_bind_mem f member, accept_bind_mem f member]
      exact found t member ts
    · have absent : ∀ rest, ∀ u ∈ (t :: rest).head?, u.kind ∉ kinds := by
        rintro rest u ⟨⟩
        exact member
      rw [List.cons_append, accept_bind_not_mem f (absent _), accept_bind_not_mem f (absent _)]
      exact none (t :: ts)

end Fenced

section Chain

variable {kinds : List Kind} {join : Expr → Token → Expr → Expr} {operand : Parser Expr}

theorem fenced_chainFrom (apart : ∀ t ∈ us.head?, t.kind ∉ kinds) (fenced : Fenced us operand)
    (count : Nat) (left : Expr) : Fenced us (chainFrom kinds join operand count left) := by
  induction count generalizing left with
  | zero => exact .pure left
  | succ count ih =>
    exact .accept_bind apart (fun t _ => fenced.bind fun right _ => ih _) (.pure left)

/-- What follows is counted among the tokens, but more rounds than tokens change nothing. -/
theorem fenced_chainRest (apart : ∀ t ∈ us.head?, t.kind ∉ kinds) (orderly : Orderly operand)
    (fenced : Fenced us operand) (left : Expr) : Fenced us (chainRest kinds join operand left) := by
  intro ts
  have enough : ts.length ≤ (ts ++ us).length := by simp
  have step : Step.Within us (chainFrom kinds join operand (ts ++ us).length left ts)
      (chainFrom kinds join operand (ts ++ us).length left (ts ++ us)) :=
    fenced_chainFrom apart fenced _ left ts
  rwa [chainFrom_count orderly left enough (Nat.le_refl _)] at step

end Chain

theorem atom?_of_fence {t : Token} (outside : t.kind ∉ Kind.inExpressions) :
    Expr.atom? t = none := by
  unfold Expr.atom?
  split
  case h_7 => rfl
  all_goals simp_all [Kind.inExpressions]

theorem fenced_atom (fence : Fence us) : Fenced us atom := by
  intro ts
  match ts with
  | [] =>
    have none : us.head?.bind Expr.atom? = none := by
      cases us with
      | nil => rfl
      | cons t us => exact atom?_of_fence (fence t rfl)
    rw [List.nil_append, atom, next_bind, next_bind, none]
    exact .failure
  | t :: ts =>
    rw [List.cons_append, atom, next_bind, next_bind]
    simp only [List.head?_cons, Option.bind_some]
    cases Expr.atom? t with
    | none => exact .failure
    | some e => exact .yield (by simp)

/-- A rule may look for every kind that what follows does not begin with. -/
theorem passes_fenced (fence : Fence us) : Passes (fun kind => ∀ t ∈ us.head?, t.kind ≠ kind)
    fun strict _ p => Moves strict p ∧ Fenced us p where
  usual _ usual t first same := fence t first (same ▸ usual)
  relax both := ⟨passes_moves.relax both.1, both.2⟩
  pure a := ⟨passes_moves.pure a, .pure a⟩
  bind first next :=
    ⟨passes_moves.bind first.1 fun a given => (next a given).1,
      first.2.bind fun a given => (next a given).2⟩
  fail grave := ⟨passes_moves.fail grave, .fail _⟩
  accept_bind fine found absent :=
    ⟨passes_moves.accept_bind (fun _ _ => trivial) (fun t member => (found t member).1) absent.1,
      .accept_bind (fun t first member => fine t.kind member t first rfl)
        (fun t member => (found t member).2) absent.2⟩
  atom := ⟨advancing_atom, fenced_atom fence⟩
  chainRest left fine operand :=
    ⟨passes_moves.chainRest left (fun _ _ => trivial) operand.1,
      fenced_chainRest (fun t first member => fine t.kind member t first rfl)
        (Advancing.toOrderly operand.1) operand.2 left⟩
  dropValue {p} target value := by
    refine ⟨passes_moves.dropValue target value.1, ?_⟩
    refine .accept_bind (fun t first member => fence t first ?_) (fun operator _ => ?_) (.pure target)
    · exact (by decide : _ ⊆ Kind.inExpressions) member
    · exact value.2.bind fun _ _ => (Fenced.complain operator .target).bind fun _ _ => .pure target

theorem fenced_within (fence : Fence us) (depth : Nat) : (Rules.within depth).Each (Fenced us) :=
  ((passes_fenced fence).within depth).imp fun _ both => both.2

end Parser

end Scriptlet
