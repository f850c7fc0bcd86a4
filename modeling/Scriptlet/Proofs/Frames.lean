import Scriptlet.Proofs.Results
import Scriptlet.Proofs.Scopes

/-! What a statement leaves alone. However it ends, the scopes that were there are still there, enclosed
as before and binding the same names, but for the name of a declaration in the current scope. Only the
names that are assigned to somewhere in the statement may have other values. -/
namespace Scriptlet

section Monad

variable {ε σ α β : Type}

def final : EStateM.Result ε σ α → σ
  | .ok _ s => s
  | .error _ s => s

/-- However a computation ends, the state then is in a relation to the state before. -/
def Relates (R : σ → σ → Prop) (x : EStateM ε σ α) : Prop :=
  ∀ s, R s (final (x s))

namespace Relates

variable {R : σ → σ → Prop}

theorem pure (refl : ∀ s, R s s) (a : α) : Relates R (Pure.pure a : EStateM ε σ α) :=
  refl

theorem throw (refl : ∀ s, R s s) (e : ε) : Relates R (MonadExcept.throw e : EStateM ε σ α) :=
  refl

theorem bind {x : EStateM ε σ α} {f : α → EStateM ε σ β} (first : Relates R x)
    (trans : ∀ s t u, R s t → R t u → R s u) (next : ∀ a, Relates R (f a)) :
    Relates R (x >>= f) := by
  intro s
  have start := first s
  cases result : x s with
  | ok a t =>
    rw [result] at start
    rw [bind_of_ok result]
    exact trans _ _ _ start (next a t)
  | error e t =>
    rw [result] at start
    rwa [bind_of_error result]

theorem map {x : EStateM ε σ α} (g : α → β) (first : Relates R x) : Relates R (g <$> x) := by
  intro s
  have start := first s
  cases result : x s with
  | ok a t =>
    rw [result] at start
    rwa [map_of_ok result]
  | error e t =>
    rw [result] at start
    rwa [map_of_error result]

end Relates

end Monad

namespace Expr

/-- The names that are assigned to. A step assigns only to a bare name. -/
def targets : Expr → List String
  | .literal _ => []
  | .var _ => []
  | .assign name value => name.lexeme :: value.targets
  | .group inner => inner.targets
  | .unary _ right => right.targets
  | .binary left _ right => left.targets ++ right.targets
  | .logical left _ right => left.targets ++ right.targets
  | .choice condition consequent alternate =>
    condition.targets ++ consequent.targets ++ alternate.targets
  | .step (.var name) _ => [name.lexeme]
  | .step operand _ => operand.targets

theorem targets_step_subset (operand : Expr) (operator : Token) :
    operand.targets ⊆ (step operand operator).targets := by
  cases operand with
  | var name => exact List.nil_subset _
  | _ => exact List.Subset.refl _

end Expr

namespace Stmt

mutual

def targets : Stmt → List String
  | .expr e => e.targets
  | .print _ e => e.targets
  | .declare _ none => []
  | .declare _ (some e) => e.targets
  | .block body => allTargets body
  | .branch condition consequent alternate =>
    condition.targets ++ allTargets consequent ++ allTargets alternate
  | .loop condition body => condition.targets ++ body.targets
  | .leave _ => []

def allTargets : List Stmt → List String
  | [] => []
  | s :: rest => s.targets ++ allTargets rest

end

def declared : Stmt → List String
  | .declare name _ => [name.lexeme]
  | _ => []

def declaredAt (s : Stmt) : EStateM.Result Exit Machine Unit → List String
  | .ok _ _ => s.declared
  | .error _ _ => []

/-- The statements that end well, up to the first that does not. -/
def completed (rounds : Nat) (scope : ScopeId) : List Stmt → Machine → List Stmt
  | [], _ => []
  | s :: rest, m =>
    match s.exec rounds scope m with
    | .ok _ after => s :: completed rounds scope rest after
    | .error _ _ => []

end Stmt

namespace Store

/-- The second store is the first after something ran in a scope: nothing but the declared names is
bound anew, and those in this scope, and nothing but these and the targets has another value. -/
structure Framed (targets : List String) (scope : ScopeId) (declared : List String) (s s' : Store) :
    Prop where
  size : s'.size = s.size
  links : ∀ id, s'.enclosing? id = s.enclosing? id
  names : ∀ id x, (s'.slot id x).isSome ↔ (s.slot id x).isSome ∨ id = scope ∧ x ∈ declared
  values : ∀ id x, s'.slot id x ≠ s.slot id x → x ∈ targets ∨ id = scope ∧ x ∈ declared

theorem isSome_slot_of_owner? {s : Store} {id owner : ScopeId} {name : String}
    (found : s.owner? id name = some owner) : (s.slot owner name).isSome := by
  have within (count : Nat) : ∀ id, s.ownerWithin name count id = some owner →
      (s.slot owner name).isSome := by
    induction count with
    | zero => intro id found; nomatch found
    | succ count ih =>
      intro id found
      rw [ownerWithin_succ] at found
      split at found
      · rename_i bound
        rwa [← Option.some.inj found]
      · obtain ⟨outer, -, further⟩ := Option.bind_eq_some_iff.1 found
        exact ih outer further
  exact within (id + 1) id found

theorem inside_of_slot {s : Store} {id : ScopeId} {name : String} (bound : (s.slot id name).isSome) :
    id < s.size := by
  by_contra outside
  rw [slot_eq_none (Nat.le_of_not_lt outside)] at bound
  nomatch bound

theorem enclosing?_eq_none {s : Store} {id : ScopeId} (absent : s.size ≤ id) :
    s.enclosing? id = none := by
  have outside : s.scopes[id]? = none := Array.getElem?_eq_none absent
  rw [enclosing?, outside]
  rfl

theorem slot_truncate (s : Store) (count : Nat) (id : ScopeId) (name : String) :
    (s.truncate count).slot id name = if id < count then s.slot id name else none := by
  rw [slot, slot, getElem?_truncate]
  split <;> rfl

theorem enclosing?_truncate (s : Store) (count : Nat) (id : ScopeId) :
    (s.truncate count).enclosing? id = if id < count then s.enclosing? id else none := by
  rw [enclosing?, enclosing?, getElem?_truncate]
  split <;> rfl

namespace Framed

variable {targets declared : List String} {scope : ScopeId} {s t u : Store}

theorem refl (s : Store) : Framed targets scope [] s s where
  size := rfl
  links _ := rfl
  names _ _ := by simp
  values _ _ changed := absurd rfl changed

theorem trans {more : List String} (first : Framed targets scope declared s t)
    (second : Framed targets scope more t u) : Framed targets scope (declared ++ more) s u where
  size := second.size.trans first.size
  links id := (second.links id).trans (first.links id)
  names id x := by
    rw [second.names, first.names, List.mem_append]
    tauto
  values id x changed := by
    by_cases early : t.slot id x = s.slot id x
    · have late := second.values id x (fun same => changed (same.trans early))
      rw [List.mem_append]
      tauto
    · have soon := first.values id x early
      rw [List.mem_append]
      tauto

theorem overwrite {id : ScopeId} {name : String} (bound : (s.slot id name).isSome)
    (target : name ∈ targets) (v : Value) : Framed targets scope [] s (s.define id name v) where
  size := size_define s id name v
  links other := enclosing?_define s id other name v
  names other x := by
    rw [slot_define (inside_of_slot bound)]
    split
    · rename_i same
      simp [same, bound]
    · simp
  values other x changed := by
    rw [slot_define (inside_of_slot bound)] at changed
    split at changed
    · rename_i same
      exact .inl (same.2 ▸ target)
    · exact absurd rfl changed

theorem declare (inside : scope < s.size) (name : String) (v : Value) :
    Framed targets scope [name] s (s.define scope name v) where
  size := size_define s scope name v
  links other := enclosing?_define s scope other name v
  names other x := by
    rw [slot_define inside]
    split
    · rename_i same
      simp [same]
    · rename_i other
      simp only [List.mem_singleton]
      tauto
  values other x changed := by
    rw [slot_define inside] at changed
    split at changed
    · rename_i same
      exact .inr ⟨same.1, by simp [same.2]⟩
    · exact absurd rfl changed

/-- What was declared in a scope that is gone again is gone with it. -/
theorem close {outer : Option ScopeId} (inner : Framed targets s.size declared (s.add outer) t) :
    Framed targets scope [] s (t.truncate s.size) where
  size := size_truncate (by rw [inner.size, size_add]; omega)
  links id := by
    rw [enclosing?_truncate]
    split
    · rename_i older
      rw [inner.links, enclosing?_add, if_neg (Nat.ne_of_lt older)]
    · rename_i absent
      rw [enclosing?_eq_none (Nat.le_of_not_lt absent)]
  names id x := by
    rw [slot_truncate]
    split
    · rename_i older
      simp [inner.names, slot_add, Nat.ne_of_lt older]
    · rename_i absent
      simp [slot_eq_none (Nat.le_of_not_lt absent)]
  values id x changed := by
    rw [slot_truncate] at changed
    split at changed
    · rename_i older
      rw [← slot_add s outer] at changed
      exact .inl ((inner.values id x changed).resolve_right fun last => Nat.ne_of_lt older last.1)
    · rename_i absent
      exact absurd (slot_eq_none (Nat.le_of_not_lt absent) x).symm changed

theorem aged (framed : Framed targets scope declared s t) (aged : s.Aged) : t.Aged := by
  intro id outer link
  rw [framed.links] at link
  exact aged id outer link

end Framed

end Store

open Store (Framed)

section Evaluations

variable {targets : List String} (scope : ScopeId)

namespace Evaluation

theorem get_framed (name : Token) : Relates (Framed targets scope []) (get scope name) := by
  intro s
  rw [get_apply]
  split <;> exact .refl s

theorem assign_framed {name : Token} (target : name.lexeme ∈ targets) (v : Value) :
    Relates (Framed targets scope []) (assign scope name v) := by
  intro s
  rw [assign_apply]
  split
  · rename_i found
    exact .overwrite (Store.isSome_slot_of_owner? found) target v
  · exact .refl s

theorem ofExcept_framed {α : Type} (x : Except Stop α) :
    Relates (Framed targets scope []) (ofExcept x) := by
  cases x with
  | ok a => exact .pure .refl a
  | error stop => exact .throw .refl stop

end Evaluation

namespace Expr

theorem eval_framed {e : Expr} (covered : e.targets ⊆ targets) :
    Relates (Framed targets scope []) (e.eval scope) := by
  have trans (s t u : Store) (first : Framed targets scope [] s t)
      (second : Framed targets scope [] t u) : Framed targets scope [] s u := first.trans second
  induction e with
  | literal v => exact .pure .refl v
  | var name => exact Evaluation.get_framed scope name
  | assign name value ih =>
    simp only [Expr.targets, List.cons_subset] at covered
    exact (ih covered.2).bind trans fun v =>
      (Evaluation.assign_framed scope covered.1 v).bind trans fun _ => .pure .refl v
  | group inner ih => exact ih covered
  | unary operator right ih =>
    exact (ih covered).bind trans fun v => Evaluation.ofExcept_framed scope _
  | binary left operator right ihl ihr =>
    simp only [Expr.targets, List.append_subset] at covered
    exact (ihl covered.1).bind trans fun v => (ihr covered.2).bind trans fun w =>
      Evaluation.ofExcept_framed scope _
  | logical left operator right ihl ihr =>
    simp only [Expr.targets, List.append_subset] at covered
    refine (ihl covered.1).bind trans fun v => ?_
    split
    · exact .pure .refl v
    · exact ihr covered.2
  | choice condition consequent alternate ihc iht ihe =>
    simp only [Expr.targets, List.append_subset] at covered
    exact (ihc covered.1.1).bind trans fun _ => (iht covered.1.2).bind trans fun _ =>
      (ihe covered.2).bind trans fun _ => .pure .refl _
  | step operand operator ih =>
    have operands := List.Subset.trans (targets_step_subset operand operator) covered
    refine (ih operands).bind trans fun old =>
      (Evaluation.ofExcept_framed scope _).bind trans fun x => ?_
    cases operand with
    | var name =>
      exact (Evaluation.assign_framed scope (covered List.mem_cons_self) _).bind trans fun _ =>
        .pure .refl old
    | _ => exact (Relates.pure .refl ()).bind trans fun _ => .pure .refl old

end Expr

end Evaluations

def Machine.Framed (targets : List String) (scope : ScopeId) (m m' : Machine) : Prop :=
  m.store.Framed targets scope [] m'.store

namespace Machine.Framed

variable {targets : List String} {scope : ScopeId}

theorem refl (m : Machine) : m.Framed targets scope m :=
  Store.Framed.refl m.store

theorem trans {m m' m'' : Machine} (first : m.Framed targets scope m')
    (second : m'.Framed targets scope m'') : m.Framed targets scope m'' :=
  Store.Framed.trans first second

end Machine.Framed

namespace Execution

variable {targets : List String} {scope : ScopeId}

theorem eval_framed {e : Expr} (covered : e.targets ⊆ targets) :
    Relates (Machine.Framed targets scope) (eval scope e) := by
  intro m
  have inside := Expr.eval_framed scope covered m.store
  rw [eval]
  generalize e.eval scope m.store = result at inside
  cases result <;> exact inside

theorem print_framed (keyword : Token) (v : Value) :
    Relates (Machine.Framed targets scope) (print keyword v) := by
  refine Relates.bind (fun m => .refl m) (fun _ _ _ => .trans) fun m =>
    Relates.bind (fun m => Store.Framed.refl m.store) (fun _ _ _ => .trans) fun _ => ?_
  split
  · exact .throw .refl _
  · exact .pure .refl _

theorem inScope_framed {body : ScopeId → Execution Unit}
    (inside : ∀ inner m, inner < m.store.size → ∃ declared,
      Framed targets inner declared m.store (final (body inner m)).store) :
    Relates (Machine.Framed targets scope) (inScope scope body) := by
  intro m
  have opened : m.store.size < (m.store.add (some scope)).size := by simp
  obtain ⟨declared, ran⟩ := inside m.store.size { m with store := m.store.add (some scope) } opened
  simp only [inScope]
  generalize body m.store.size { m with store := m.store.add (some scope) } = result at ran
  cases result <;> exact ran.close

theorem repeatWhile_framed {condition : Execution Value} {body : Execution Unit}
    (first : Relates (Machine.Framed targets scope) condition)
    (round : Relates (Machine.Framed targets scope) body) (count : Nat) :
    Relates (Machine.Framed targets scope) (repeatWhile condition body count) := by
  induction count with
  | zero => exact .throw .refl _
  | succ count ih =>
    intro m
    have start := first m
    simp only [repeatWhile]
    generalize condition m = result at start
    cases result with
    | error exit after => exact start
    | ok v after =>
      dsimp only
      split
      · have further := start.trans (round after)
        generalize body after = result at further
        cases result with
        | ok _ again => exact further.trans (ih again)
        | error exit last => cases exit <;> exact further
      · exact start

end Execution

namespace Stmt

variable {targets : List String} (rounds : Nat)

theorem declaredAt_eq_nil {s : Stmt} (other : s.declared = [])
    (result : EStateM.Result Exit Machine Unit) : s.declaredAt result = [] := by
  cases result with
  | ok => exact other
  | error => rfl

mutual

/-- A statement leaves all alone but its targets and, where it ends well, the name it declares. -/
theorem exec_framed : (s : Stmt) → s.targets ⊆ targets → (scope : ScopeId) → (m : Machine) →
    scope < m.store.size →
    Framed targets scope (s.declaredAt (s.exec rounds scope m)) m.store
      (final (s.exec rounds scope m)).store
  | .expr e, covered, scope, m, _ => by
    rw [declaredAt_eq_nil rfl]
    exact (Execution.eval_framed covered).map _ m
  | .print keyword e, covered, scope, m, _ => by
    rw [declaredAt_eq_nil rfl]
    exact (Execution.eval_framed covered).bind (fun _ _ _ => .trans)
      (fun v => Execution.print_framed keyword v) m
  | .declare name none, _, scope, m, inside => .declare inside name.lexeme .nil
  | .declare name (some e), covered, scope, m, inside => by
    have first : m.Framed targets scope (final (Execution.eval scope e m)) :=
      Execution.eval_framed covered m
    rw [exec]
    cases result : Execution.eval scope e m with
    | error exit after =>
      rw [result] at first
      rw [bind_of_error result]
      exact first
    | ok v after =>
      rw [result] at first
      rw [bind_of_ok result]
      have still : scope < after.store.size := Nat.lt_of_lt_of_eq inside first.size.symm
      exact Store.Framed.trans first (.declare still name.lexeme v)
  | .block body, covered, scope, m, _ => by
    rw [declaredAt_eq_nil rfl]
    exact Execution.inScope_framed (fun inner m inside =>
      ⟨_, execAll_framed body covered inner m inside⟩) m
  | .branch condition consequent alternate, covered, scope, m, _ => by
    rw [declaredAt_eq_nil rfl]
    simp only [Stmt.targets, List.append_subset] at covered
    refine (Execution.eval_framed covered.1.1).bind (fun _ _ _ => .trans) (fun v => ?_) m
    split
    · exact Execution.inScope_framed fun inner m inside =>
        ⟨_, execAll_framed consequent covered.1.2 inner m inside⟩
    · exact Execution.inScope_framed fun inner m inside =>
        ⟨_, execAll_framed alternate covered.2 inner m inside⟩
  | .loop condition body, covered, scope, m, _ => by
    rw [declaredAt_eq_nil rfl]
    simp only [Stmt.targets, List.append_subset] at covered
    refine Execution.repeatWhile_framed (Execution.eval_framed covered.1) ?_ rounds m
    exact Execution.inScope_framed fun inner m inside =>
      ⟨_, exec_framed body covered.2 inner m inside⟩
  | .leave keyword, _, scope, m, _ => .refl _

theorem execAll_framed : (body : List Stmt) → allTargets body ⊆ targets → (scope : ScopeId) →
    (m : Machine) → scope < m.store.size →
    Framed targets scope ((completed rounds scope body m).flatMap declared) m.store
      (final (execAll rounds scope body m)).store
  | [], _, scope, m, _ => .refl _
  | s :: rest, covered, scope, m, inside => by
    simp only [allTargets, List.append_subset] at covered
    have first := exec_framed s covered.1 scope m inside
    rw [execAll, completed]
    cases result : s.exec rounds scope m with
    | error exit after =>
      rw [result] at first
      rw [bind_of_error result]
      exact first
    | ok _ after =>
      rw [result] at first
      have still : scope < after.store.size := Nat.lt_of_lt_of_eq inside first.size.symm
      rw [bind_of_ok result, List.flatMap_cons]
      exact first.trans (execAll_framed rest covered.2 scope after still)

end

end Stmt

end Scriptlet
