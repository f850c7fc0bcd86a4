import Scriptlet.Proofs.Likeness
import Scriptlet.Proofs.Results

/-! Trees that are alike run alike: they change the variables and print in the same way, and stop
for the same reason, blaming tokens that are alike. -/
namespace Scriptlet

inductive Stop.Like (R : Token → Token → Prop) : Stop → Stop → Prop
  | failure {f g : Failure} : R f.token g.token → f.fault = g.fault →
      Like R (.failure f) (.failure g)
  | malformed {arity : Arity} {kind : Kind} : Like R (.malformed arity kind) (.malformed arity kind)
  | exhausted : Like R .exhausted .exhausted

inductive Exit.Like (R : Token → Token → Prop) : Exit → Exit → Prop
  | stop {s t : Stop} : s.Like R t → Like R (.stop s) (.stop t)
  | left : Like R .left .left

/-- Results with the same value and state, or errors in a relation with the same state. -/
inductive SameEnd {ε σ α : Type} (E : ε → ε → Prop) :
    EStateM.Result ε σ α → EStateM.Result ε σ α → Prop
  | ok {a : α} {s : σ} : SameEnd E (.ok a s) (.ok a s)
  | error {e d : ε} {s : σ} : E e d → SameEnd E (.error e s) (.error d s)

def SameRun {ε σ α : Type} (E : ε → ε → Prop) (x y : EStateM ε σ α) : Prop :=
  ∀ s, SameEnd E (x s) (y s)

namespace SameRun

variable {ε σ α β : Type} {E : ε → ε → Prop}

theorem pure (a : α) : SameRun E (Pure.pure a : EStateM ε σ α) (Pure.pure a) :=
  fun _ => .ok

theorem throw {e d : ε} (related : E e d) : SameRun E (MonadExcept.throw e : EStateM ε σ α)
    (MonadExcept.throw d) :=
  fun _ => .error related

theorem bind {x y : EStateM ε σ α} {f g : α → EStateM ε σ β} (first : SameRun E x y)
    (next : ∀ a, SameRun E (f a) (g a)) : SameRun E (x >>= f) (y >>= g) := by
  intro s
  have ends := first s
  simp only [Bind.bind, EStateM.bind]
  generalize x s = r, y s = q at ends
  cases ends with
  | ok => exact next _ _
  | error related => exact .error related

theorem map {x y : EStateM ε σ α} (first : SameRun E x y) (f : α → β) :
    SameRun E (f <$> x) (f <$> y) := by
  intro s
  have ends := first s
  simp only [Functor.map, EStateM.map]
  generalize x s = r, y s = q at ends
  cases ends with
  | ok => exact .ok
  | error related => exact .error related

end SameRun

inductive SameResult {α : Type} (R : Token → Token → Prop) : Except Stop α → Except Stop α → Prop
  | ok {a : α} : SameResult R (.ok a) (.ok a)
  | error {s t : Stop} : s.Like R t → SameResult R (.error s) (.error t)

theorem SameResult.ofExcept {α : Type} {R : Token → Token → Prop} {x y : Except Stop α}
    (same : SameResult R x y) :
    SameRun (Stop.Like R) (Evaluation.ofExcept x) (Evaluation.ofExcept y) := by
  cases same with
  | ok => exact .pure _
  | error like => exact .throw like

namespace Operator

variable {R : Token → Token → Prop} {t u : Token}

theorem number_like (related : R t u) (v : Value) : SameResult R (number t v) (number u v) := by
  unfold number
  split
  · exact .ok
  · exact .error (.failure related rfl)

theorem unary_like (likeness : Likeness R) (related : R t u) (v : Value) :
    SameResult R (unary t v) (unary u v) := by
  unfold unary
  rw [← likeness.kind related]
  split
  · have same := number_like related v
    simp only [bind, Except.bind]
    generalize number t v = r, number u v = q at same
    cases same with
    | ok => exact .ok
    | error like => exact .error like
  · exact .ok
  · exact .error .malformed

theorem add_like (related : R t u) (v w : Value) : SameResult R (add t v w) (add u v w) := by
  unfold add
  split
  · exact .ok
  · exact .ok
  · exact .error (.failure related rfl)

theorem onNumbers_like (likeness : Likeness R) (related : R t u) (x y : Float) :
    SameResult R (onNumbers t x y) (onNumbers u x y) := by
  unfold onNumbers
  rw [← likeness.kind related]
  split
  case h_3 =>
    unfold divide
    split
    · exact .error (.failure related rfl)
    · exact .ok
  case h_9 => exact .error .malformed
  all_goals exact .ok

theorem binary_like (likeness : Likeness R) (related : R t u) (v w : Value) :
    SameResult R (binary t v w) (binary u v w) := by
  unfold binary
  rw [← likeness.kind related]
  split
  · exact .ok
  · exact .ok
  · exact add_like related v w
  · split
    · exact onNumbers_like likeness related _ _
    · exact .error (.failure related rfl)

theorem decides_like (likeness : Likeness R) (related : R t u) (v : Value) :
    decides t v = decides u v := by
  rw [decides, decides, likeness.kind related]

end Operator

namespace Evaluation

variable {R : Token → Token → Prop} {t u : Token}

theorem get_like (likeness : Likeness R) (related : R t u) (scope : ScopeId) :
    SameRun (Stop.Like R) (get scope t) (get scope u) := by
  intro s
  rw [get_apply, get_apply, ← likeness.lexeme related]
  split
  · exact .ok
  · exact .error (.failure related (congrArg Fault.undefined (likeness.lexeme related)))

theorem assign_like (likeness : Likeness R) (related : R t u) (scope : ScopeId) (v : Value) :
    SameRun (Stop.Like R) (assign scope t v) (assign scope u v) := by
  intro s
  rw [assign_apply, assign_apply, ← likeness.lexeme related]
  split
  · exact .ok
  · exact .error (.failure related (congrArg Fault.undefined (likeness.lexeme related)))

end Evaluation

namespace Expr

variable {R : Token → Token → Prop}

theorem eval_like (likeness : Likeness R) {e d : Expr} (like : e.Like R d) (scope : ScopeId) :
    SameRun (Stop.Like R) (e.eval scope) (d.eval scope) := by
  induction like with
  | literal => exact .pure _
  | var related => exact Evaluation.get_like likeness related scope
  | assign related _ ih =>
    exact ih.bind fun v => (Evaluation.assign_like likeness related scope v).bind fun _ => .pure v
  | group _ ih => exact ih
  | unary related _ _ ih =>
    exact ih.bind fun v => (Operator.unary_like likeness related v).ofExcept
  | binary related _ _ _ ihLeft ihRight =>
    exact ihLeft.bind fun v => ihRight.bind fun w =>
      (Operator.binary_like likeness related v w).ofExcept
  | logical related _ _ _ ihLeft ihRight =>
    refine ihLeft.bind fun v => ?_
    simp only [Operator.decides_like likeness related v]
    split
    · exact .pure v
    · exact ihRight
  | choice _ _ _ ihFirst ihSecond ihThird =>
    exact ihFirst.bind fun u => ihSecond.bind fun v => ihThird.bind fun w => .pure _
  | step related _ operand ih =>
    refine ih.bind fun v => (Operator.number_like related v).ofExcept.bind fun x => ?_
    simp only [Operator.stepped, ← likeness.kind related]
    cases operand with
    | var names =>
      exact (Evaluation.assign_like likeness names scope _).bind fun _ => .pure v
    | _ => exact .pure v

end Expr

namespace Execution

variable {R : Token → Token → Prop}

theorem eval_like (likeness : Likeness R) {e d : Expr} (like : e.Like R d) (scope : ScopeId) :
    SameRun (Exit.Like R) (eval scope e) (eval scope d) := by
  intro m
  have ends := Expr.eval_like likeness like scope m.store
  simp only [eval]
  generalize e.eval scope m.store = r, d.eval scope m.store = q at ends
  cases ends with
  | ok => exact .ok
  | error like => exact .error (.stop like)

theorem define_like (likeness : Likeness R) {t u : Token} (related : R t u) (scope : ScopeId)
    (v : Value) : SameRun (Exit.Like R) (define scope t v) (define scope u v) := by
  intro m
  simp only [define, likeness.lexeme related]
  exact .ok

theorem print_like {t u : Token} (related : R t u) (v : Value) :
    SameRun (Exit.Like R) (print t v) (print u v) := by
  refine SameRun.bind (fun _ => .ok) fun m => SameRun.bind (fun _ => .ok) fun _ => ?_
  split
  · exact .throw (.stop (.failure related rfl))
  · exact .pure _

theorem inScope_like {body body' : ScopeId → Execution Unit} (outer : ScopeId)
    (same : ∀ inner, SameRun (Exit.Like R) (body inner) (body' inner)) :
    SameRun (Exit.Like R) (inScope outer body) (inScope outer body') := by
  intro m
  have ends := same m.store.size { m with store := m.store.add (some outer) }
  simp only [inScope]
  generalize body m.store.size { m with store := m.store.add (some outer) } = r,
    body' m.store.size { m with store := m.store.add (some outer) } = q at ends
  cases ends with
  | ok => exact .ok
  | error like => exact .error like

theorem repeatWhile_like {condition condition' : Execution Value} {body body' : Execution Unit}
    (first : SameRun (Exit.Like R) condition condition') (round : SameRun (Exit.Like R) body body')
    (count : Nat) :
    SameRun (Exit.Like R) (repeatWhile condition body count)
      (repeatWhile condition' body' count) := by
  induction count with
  | zero => exact .throw (.stop .exhausted)
  | succ count ih =>
    intro m
    have ends := first m
    simp only [repeatWhile]
    generalize condition m = r, condition' m = q at ends
    cases ends with
    | error like => exact .error like
    | @ok v after =>
      dsimp only
      split
      · have ends := round after
        generalize body after = r, body' after = q at ends
        cases ends with
        | ok => exact ih _
        | error like =>
          cases like with
          | left => exact .ok
          | stop like => exact .error (.stop like)
      · exact .ok

end Execution

namespace Stmt

variable {R : Token → Token → Prop}

mutual

theorem exec_like (likeness : Likeness R) (rounds : Nat) : {s s' : Stmt} → s.Like R s' →
    (scope : ScopeId) → SameRun (Exit.Like R) (s.exec rounds scope) (s'.exec rounds scope)
  | _, _, .expr like, scope => (Execution.eval_like likeness like scope).map _
  | _, _, .print related like, scope =>
    (Execution.eval_like likeness like scope).bind fun v => Execution.print_like related v
  | _, _, .declareNil related, scope => Execution.define_like likeness related scope .nil
  | _, _, .declare related like, scope =>
    (Execution.eval_like likeness like scope).bind fun v =>
      Execution.define_like likeness related scope v
  | _, _, .block like, scope =>
    Execution.inScope_like scope fun inner => execAll_like likeness rounds like inner
  | _, _, .branch condition consequent alternate, scope => by
    refine (Execution.eval_like likeness condition scope).bind fun v => ?_
    split
    · exact Execution.inScope_like scope fun inner => execAll_like likeness rounds consequent inner
    · exact Execution.inScope_like scope fun inner => execAll_like likeness rounds alternate inner
  | _, _, .loop condition body, scope =>
    Execution.repeatWhile_like (Execution.eval_like likeness condition scope)
      (Execution.inScope_like scope fun inner => exec_like likeness rounds body inner) rounds
  | _, _, .leave _, _ => .throw .left

theorem execAll_like (likeness : Likeness R) (rounds : Nat) : {xs ys : List Stmt} →
    AllLike R xs ys →
    (scope : ScopeId) → SameRun (Exit.Like R) (execAll rounds scope xs) (execAll rounds scope ys)
  | _, _, .nil, _ => .pure ()
  | _, _, .cons first rest, scope =>
    (exec_like likeness rounds first scope).bind fun _ => execAll_like likeness rounds rest scope

end

end Stmt

end Scriptlet
