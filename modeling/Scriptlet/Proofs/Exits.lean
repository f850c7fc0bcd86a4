import Scriptlet.Proofs.AgreementExpr

/-! Exits that a tree cannot take. A statement whose breaks are all inside its own loops never
leaves a loop around it, and a tree whose operators have a meaning where they stand never ends as
malformed. -/
namespace Scriptlet

/-- A computation that never ends with an error of this sort. -/
def Avoids {ε σ α : Type} (bad : ε → Prop) (x : EStateM ε σ α) : Prop :=
  ∀ s e s', x s = .error e s' → ¬ bad e

namespace Avoids

section Monad

variable {ε σ α β : Type} {bad : ε → Prop}

theorem pure (a : α) : Avoids bad (Pure.pure a : EStateM ε σ α) :=
  fun _ _ _ ends => nomatch ends

theorem throw {e : ε} (fine : ¬ bad e) : Avoids bad (MonadExcept.throw e : EStateM ε σ α) := by
  rintro s e' s' ⟨⟩
  exact fine

theorem bind {x : EStateM ε σ α} {f : α → EStateM ε σ β} (first : Avoids bad x)
    (next : ∀ a, Avoids bad (f a)) : Avoids bad (x >>= f) := by
  intro s e s' ends
  cases result : x s with
  | ok a s'' =>
    rw [bind_of_ok result] at ends
    exact next a s'' e s' ends
  | error e' s'' =>
    rw [bind_of_error result] at ends
    obtain ⟨rfl, rfl⟩ := EStateM.Result.error.inj ends
    exact first s _ _ result

theorem map {x : EStateM ε σ α} (g : α → β) (first : Avoids bad x) : Avoids bad (g <$> x) := by
  intro s e s' ends
  cases result : x s with
  | ok a s'' =>
    rw [map_of_ok result] at ends
    cases ends
  | error e' s'' =>
    rw [map_of_error result] at ends
    obtain ⟨rfl, rfl⟩ := EStateM.Result.error.inj ends
    exact first s _ _ result

end Monad

section Executions

variable {bad : Exit → Prop}

theorem eval {scope : ScopeId} {e : Expr}
    (inside : Avoids (fun s => bad (.stop s)) (e.eval scope)) :
    Avoids bad (Execution.eval scope e) := by
  intro m exit m' ends
  rw [Execution.eval] at ends
  split at ends
  · cases ends
  · rename_i stop store result
    obtain ⟨rfl, rfl⟩ := EStateM.Result.error.inj ends
    exact inside _ _ _ result

theorem define (scope : ScopeId) (name : Token) (v : Value) :
    Avoids bad (Execution.define scope name v) :=
  fun _ _ _ ends => nomatch ends

theorem print {keyword : Token} (fine : ¬ bad (.stop (.failure ⟨keyword, .output "sink full"⟩)))
    (v : Value) : Avoids bad (Execution.print keyword v) := by
  refine Avoids.bind (fun _ _ _ ends => nomatch ends) fun m =>
    Avoids.bind (fun _ _ _ ends => nomatch ends) fun _ => ?_
  split
  · exact .throw fine
  · exact .pure ()

theorem inScope {body : ScopeId → Execution Unit} (outer : ScopeId)
    (inside : ∀ inner, Avoids bad (body inner)) : Avoids bad (Execution.inScope outer body) := by
  intro m exit m' ends
  simp only [Execution.inScope] at ends
  split at ends
  · cases ends
  · rename_i result
    obtain ⟨rfl, rfl⟩ := EStateM.Result.error.inj ends
    exact inside _ _ _ _ result

/-- A loop takes the exits of its condition and of its body, but for those that leave it. -/
theorem repeatWhile {condition : Execution Value} {body : Execution Unit}
    (fine : ¬ bad (.stop .exhausted)) (first : Avoids bad condition)
    (inside : Avoids (fun exit => exit ≠ .left ∧ bad exit) body) (count : Nat) :
    Avoids bad (Execution.repeatWhile condition body count) := by
  induction count with
  | zero => exact .throw fine
  | succ count ih =>
    intro m exit m' ends
    simp only [Execution.repeatWhile] at ends
    split at ends
    · rename_i result
      obtain ⟨rfl, rfl⟩ := EStateM.Result.error.inj ends
      exact first _ _ _ result
    · split at ends
      · split at ends
        · exact ih _ _ _ ends
        · cases ends
        · rename_i other result
          obtain ⟨rfl, rfl⟩ := EStateM.Result.error.inj ends
          exact fun reached => inside _ _ _ result ⟨other, reached⟩
      · cases ends

theorem run {rounds : Nat} {entries : List (Option Stmt)}
    (inside : Avoids bad (Stmt.execAll rounds Machine.globalScope (entries.filterMap id))) :
    Avoids (fun s => bad (.stop s)) (Machine.run rounds entries) := by
  intro m stop m' ends
  rw [Machine.run] at ends
  split at ends
  · cases ends
  · cases ends
  · rename_i result
    obtain ⟨rfl, rfl⟩ := EStateM.Result.error.inj ends
    exact inside _ _ _ result

theorem evaluate {bad : Stop → Prop} {e : Expr} (inside : Avoids bad (e.eval Machine.globalScope)) :
    Avoids bad (Machine.evaluate e) := by
  intro m stop m' ends
  rw [Machine.evaluate] at ends
  split at ends
  · cases ends
  · rename_i result
    obtain ⟨rfl, rfl⟩ := EStateM.Result.error.inj ends
    exact inside _ _ _ result

end Executions

end Avoids

namespace Stmt

mutual

/-- Whether a statement holds a break outside of its own loops. -/
def leaves : Stmt → Bool
  | .block body => anyLeaves body
  | .branch _ consequent alternate => anyLeaves consequent || anyLeaves alternate
  | .leave _ => true
  | _ => false

def anyLeaves : List Stmt → Bool
  | [] => false
  | s :: rest => s.leaves || anyLeaves rest

end

theorem eval_stays (scope : ScopeId) (e : Expr) : Avoids (· = .left) (Execution.eval scope e) :=
  .eval fun _ _ _ _ reached => nomatch reached

mutual

theorem exec_stays (rounds : Nat) : (s : Stmt) → s.leaves = false → (scope : ScopeId) →
    Avoids (· = .left) (s.exec rounds scope)
  | .expr e, _, scope => (eval_stays scope e).map _
  | .print _ e, _, scope => (eval_stays scope e).bind fun v => .print (by simp) v
  | .declare name none, _, scope => .define scope name .nil
  | .declare name (some e), _, scope => (eval_stays scope e).bind fun v => .define scope name v
  | .block body, kept, scope => .inScope scope fun inner => execAll_stays rounds body kept inner
  | .branch condition consequent alternate, kept, scope => by
    simp only [leaves, Bool.or_eq_false_iff] at kept
    refine (eval_stays scope condition).bind fun v => ?_
    split
    · exact .inScope scope fun inner => execAll_stays rounds consequent kept.1 inner
    · exact .inScope scope fun inner => execAll_stays rounds alternate kept.2 inner
  | .loop condition body, _, scope => by
    refine .repeatWhile (by simp) (eval_stays scope condition) ?_ rounds
    exact fun _ _ _ _ reached => reached.1 reached.2
  | .leave _, kept, _ => nomatch kept

theorem execAll_stays (rounds : Nat) : (body : List Stmt) → anyLeaves body = false →
    (scope : ScopeId) → Avoids (· = .left) (execAll rounds scope body)
  | [], _, _ => .pure ()
  | s :: rest, kept, scope => by
    simp only [anyLeaves, Bool.or_eq_false_iff] at kept
    exact (exec_stays rounds s kept.1 scope).bind fun _ => execAll_stays rounds rest kept.2 scope

end

end Stmt

def Stop.IsMalformed : Stop → Prop
  | .malformed _ _ => True
  | _ => False

def Exit.IsMalformed : Exit → Prop
  | .stop s => s.IsMalformed
  | .left => False

namespace Evaluation

theorem get_avoids (scope : ScopeId) (name : Token) : Avoids Stop.IsMalformed (get scope name) := by
  intro s stop s' ends
  rw [get_apply] at ends
  split at ends
  · cases ends
  · obtain ⟨rfl, rfl⟩ := EStateM.Result.error.inj ends
    exact id

theorem assign_avoids (scope : ScopeId) (name : Token) (v : Value) :
    Avoids Stop.IsMalformed (assign scope name v) := by
  intro s stop s' ends
  rw [assign_apply] at ends
  split at ends
  · cases ends
  · obtain ⟨rfl, rfl⟩ := EStateM.Result.error.inj ends
    exact id

theorem raised_avoids (r : Except Failure Value) :
    Avoids Stop.IsMalformed (ofExcept (raised r)) := by
  cases r with
  | ok v => exact .pure v
  | error f => exact .throw id

end Evaluation

namespace Expr

theorem unary_avoids {operator : Token} (sign : operator.kind.isSign) (v : Value) :
    Avoids Stop.IsMalformed (Evaluation.ofExcept (Operator.unary operator v)) := by
  obtain ⟨r, rule⟩ := Operator.unary_total sign v
  rw [Operator.unary_eq rule]
  exact Evaluation.raised_avoids r

theorem binary_avoids {operator : Token} (kind : operator.kind.isBinary) (v w : Value) :
    Avoids Stop.IsMalformed (Evaluation.ofExcept (Operator.binary operator v w)) := by
  obtain ⟨r, rule⟩ := Operator.binary_total kind v w
  rw [Operator.binary_eq rule]
  exact Evaluation.raised_avoids r

theorem number_avoids (operator : Token) (v : Value) :
    Avoids Stop.IsMalformed (Evaluation.ofExcept (Operator.number operator v)) := by
  rw [Operator.number]
  split
  · exact .pure _
  · exact .throw id

theorem eval_avoids {e : Expr} (proper : e.proper) (scope : ScopeId) :
    Avoids Stop.IsMalformed (e.eval scope) := by
  induction e with
  | literal v => exact .pure v
  | var name => exact Evaluation.get_avoids scope name
  | assign name value ih =>
    exact (ih proper).bind fun v => (Evaluation.assign_avoids scope name v).bind fun _ => .pure v
  | group inner ih => exact ih proper
  | unary operator right ih =>
    simp only [Expr.proper, Bool.and_eq_true] at proper
    exact (ih proper.2).bind fun v => unary_avoids proper.1 v
  | binary left operator right ihl ihr =>
    simp only [Expr.proper, Bool.and_eq_true] at proper
    exact (ihl proper.1.2).bind fun v => (ihr proper.2).bind fun w => binary_avoids proper.1.1 v w
  | logical left operator right ihl ihr =>
    simp only [Expr.proper, Bool.and_eq_true] at proper
    refine (ihl proper.1.2).bind fun v => ?_
    split
    · exact .pure v
    · exact ihr proper.2
  | choice condition consequent alternate ihc iht ihe =>
    simp only [Expr.proper, Bool.and_eq_true] at proper
    exact (ihc proper.1.1).bind fun _ => (iht proper.1.2).bind fun _ =>
      (ihe proper.2).bind fun _ => .pure _
  | step operand operator ih =>
    simp only [Expr.proper, Bool.and_eq_true] at proper
    refine (ih proper.2).bind fun old => (number_avoids operator old).bind fun x => ?_
    cases operand with
    | var name => exact (Evaluation.assign_avoids scope name _).bind fun _ => .pure old
    | _ => exact (Avoids.pure ()).bind fun _ => .pure old

end Expr

namespace Stmt

theorem eval_avoids {e : Expr} (proper : e.proper) (scope : ScopeId) :
    Avoids Exit.IsMalformed (Execution.eval scope e) :=
  .eval (e.eval_avoids proper scope)

mutual

/-- A proper statement never ends as malformed, whatever the machine is. -/
theorem exec_avoids (rounds : Nat) : (s : Stmt) → s.proper → (scope : ScopeId) →
    Avoids Exit.IsMalformed (s.exec rounds scope)
  | .expr _, proper, scope => (eval_avoids proper scope).map _
  | .print _ _, proper, scope =>
    (eval_avoids proper scope).bind fun v => .print id v
  | .declare name none, _, scope => .define scope name .nil
  | .declare name (some _), proper, scope =>
    (eval_avoids proper scope).bind fun v => .define scope name v
  | .block body, proper, scope => .inScope scope fun inner =>
      execAll_avoids rounds body proper inner
  | .branch condition consequent alternate, proper, scope => by
    simp only [Stmt.proper, Bool.and_eq_true] at proper
    refine (eval_avoids proper.1.1 scope).bind fun v => ?_
    split
    · exact .inScope scope fun inner => execAll_avoids rounds consequent proper.1.2 inner
    · exact .inScope scope fun inner => execAll_avoids rounds alternate proper.2 inner
  | .loop condition body, proper, scope => by
    simp only [Stmt.proper, Bool.and_eq_true] at proper
    have round : Avoids Exit.IsMalformed
        (Execution.inScope scope fun inner => body.exec rounds inner) :=
      .inScope scope fun inner => exec_avoids rounds body proper.2 inner
    refine .repeatWhile id (eval_avoids proper.1 scope) ?_ rounds
    exact fun m exit m' ends reached => round m exit m' ends reached.2
  | .leave _, _, _ => .throw id

theorem execAll_avoids (rounds : Nat) : (body : List Stmt) → allProper body → (scope : ScopeId) →
    Avoids Exit.IsMalformed (execAll rounds scope body)
  | [], _, _ => .pure ()
  | s :: rest, proper, scope => by
    simp only [allProper, Bool.and_eq_true] at proper
    exact (exec_avoids rounds s proper.1 scope).bind fun _ =>
      execAll_avoids rounds rest proper.2 scope

end

end Stmt

end Scriptlet
