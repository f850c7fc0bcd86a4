import Scriptlet.Proofs.AgreementStmt
import Scriptlet.Proofs.Frames

/-! A scope without names makes no difference. Where one is put in between, all later scopes are one
further up, and those that were enclosed by the scope below are enclosed by the new one; looking
outwards finds the same bindings as before. So a statement that declares nothing itself may run in a
scope of its own or without. -/
namespace Scriptlet

section Monad

variable {ε σ α β : Type}

inductive Matched (R : σ → σ → Prop) : EStateM.Result ε σ α → EStateM.Result ε σ α → Prop
  | ok {a : α} {s s' : σ} : R s s' → Matched R (.ok a s) (.ok a s')
  | error {e : ε} {s s' : σ} : R s s' → Matched R (.error e s) (.error e s')

/-- Computations that keep states in a relation and end in the same way. -/
def Mirrors (R : σ → σ → Prop) (x y : EStateM ε σ α) : Prop :=
  ∀ s s', R s s' → Matched R (x s) (y s')

namespace Mirrors

variable {R : σ → σ → Prop}

theorem pure (a : α) : Mirrors R (Pure.pure a : EStateM ε σ α) (Pure.pure a) :=
  fun _ _ => .ok

theorem throw (e : ε) : Mirrors R (MonadExcept.throw e : EStateM ε σ α) (MonadExcept.throw e) :=
  fun _ _ => .error

theorem bind {x y : EStateM ε σ α} {f g : α → EStateM ε σ β} (first : Mirrors R x y)
    (next : ∀ a, Mirrors R (f a) (g a)) : Mirrors R (x >>= f) (y >>= g) := by
  intro s s' related
  have ends := first s s' related
  simp only [Bind.bind, EStateM.bind]
  generalize x s = r, y s' = q at ends
  cases ends with
  | ok after => exact next _ _ _ after
  | error after => exact .error after

theorem map {x y : EStateM ε σ α} (first : Mirrors R x y) (f : α → β) :
    Mirrors R (f <$> x) (f <$> y) := by
  intro s s' related
  have ends := first s s' related
  simp only [Functor.map, EStateM.map]
  generalize x s = r, y s' = q at ends
  cases ends with
  | ok after => exact .ok after
  | error after => exact .error after

end Mirrors

end Monad

namespace Store

/-- The number of a scope when another is put in at `g`. -/
def shift (g id : Nat) : Nat :=
  if id < g then id else id + 1

def into (g c id : Nat) : Nat :=
  if id = c then g else shift g id

theorem shift_of_lt {g id : Nat} (below : id < g) : shift g id = id :=
  if_pos below

theorem shift_of_le {g id : Nat} (above : g ≤ id) : shift g id = id + 1 :=
  if_neg (Nat.not_lt_of_le above)

theorem shift_ne (g id : Nat) : shift g id ≠ g := by
  unfold shift
  split <;> omega

theorem into_of_le {g c id : Nat} (older : c < g) (above : g ≤ id) : into g c id = id + 1 := by
  rw [into, if_neg (by omega), shift_of_le above]

theorem into_le {g c id inner : Nat} (above : g ≤ id) (later : inner < id) : into g c inner ≤ id := by
  unfold into shift
  split
  · exact above
  · split <;> omega

theorem into_self (g c : Nat) : into g c c = g :=
  if_pos rfl

theorem into_of_ne {g c id : Nat} (different : id ≠ c) : into g c id = shift g id :=
  if_neg different

theorem getElem?_add (s : Store) (enclosing : Option Nat) (id : Nat) :
    (s.add enclosing).scopes[id]? =
      if id = s.size then some ⟨[], enclosing⟩ else s.scopes[id]? := by
  rw [add, Array.getElem?_push]
  rfl

/-- The second store is the first of `n` scopes with an empty scope put in at `g`, around all that is
in `c` from there on. -/
structure Inset (g c n : Nat) (s s' : Store) : Prop where
  aged : s.Aged
  older : c < g
  inside : g ≤ n
  size : s.size = n
  longer : s'.size = n + 1
  below : ∀ id < g, s'.scopes[id]? = s.scopes[id]?
  empty : s'.scopes[g]? = some ⟨[], some c⟩
  above : ∀ id, g ≤ id → s'.scopes[id + 1]? =
    s.scopes[id]?.map fun scope => { scope with enclosing := scope.enclosing.map (into g c) }

namespace Inset

variable {g c n : Nat} {s s' : Store}

theorem slot_shift (inset : Inset g c n s s') (id : Nat) (x : String) :
    s'.slot (shift g id) x = s.slot id x := by
  rw [slot, slot]
  obtain below | above := Nat.lt_or_ge id g
  · rw [shift_of_lt below, inset.below id below]
  · rw [shift_of_le above, inset.above id above]
    cases s.scopes[id]? <;> rfl

theorem slot_empty (inset : Inset g c n s s') (x : String) : s'.slot g x = none := by
  rw [slot, inset.empty]
  rfl

theorem enclosing?_below (inset : Inset g c n s s') {id : Nat} (below : id < g) :
    s'.enclosing? id = s.enclosing? id := by
  rw [enclosing?, enclosing?, inset.below id below]

theorem enclosing?_empty (inset : Inset g c n s s') : s'.enclosing? g = some c := by
  rw [enclosing?, inset.empty]
  rfl

theorem enclosing?_above (inset : Inset g c n s s') {id : Nat} (above : g ≤ id) :
    s'.enclosing? (id + 1) = (s.enclosing? id).map (into g c) := by
  rw [enclosing?, enclosing?, inset.above id above]
  cases s.scopes[id]? <;> rfl

theorem aged' (inset : Inset g c n s s') : s'.Aged := by
  intro id outer link
  obtain below | here | above := Nat.lt_trichotomy id g
  · rw [inset.enclosing?_below below] at link
    exact inset.aged id outer link
  · rw [here, inset.enclosing?_empty] at link
    rw [here, ← Option.some.inj link]
    exact inset.older
  · obtain ⟨id, rfl⟩ := Nat.exists_eq_succ_of_ne_zero (Nat.ne_of_gt (Nat.zero_lt_of_lt above))
    rw [inset.enclosing?_above (Nat.le_of_lt_succ above)] at link
    obtain ⟨inner, before, rfl⟩ := Option.map_eq_some_iff.1 link
    exact Nat.lt_succ_of_le (into_le (Nat.le_of_lt_succ above) (inset.aged id inner before))

theorem owner?_shift (inset : Inset g c n s s') (x : String) (id : Nat) :
    s'.owner? (shift g id) x = (s.owner? id x).map (shift g) := by
  -- enclosing scopes are older, so the number of the scope goes down on the way outwards
  induction id using Nat.strongRecOn with
  | _ id ih =>
    rw [inset.aged'.owner?_eq, inset.aged.owner?_eq id, inset.slot_shift]
    split
    · rfl
    · obtain below | above := Nat.lt_or_ge id g
      · rw [shift_of_lt below, inset.enclosing?_below below]
        cases link : s.enclosing? id with
        | none => rfl
        | some outer =>
          have earlier := inset.aged id outer link
          have found := ih outer earlier
          rwa [shift_of_lt (Nat.lt_trans earlier below)] at found
      · rw [shift_of_le above, inset.enclosing?_above above]
        cases link : s.enclosing? id with
        | none => rfl
        | some outer =>
          have found := ih outer (inset.aged id outer link)
          rw [Option.map_some, Option.bind_some, Option.bind_some, into]
          split
          · -- the way to `c` now leads through the empty scope
            rename_i same
            rw [inset.aged'.owner?_eq, inset.slot_empty, inset.enclosing?_empty]
            rw [same, shift_of_lt inset.older] at found
            rw [same]
            exact found
          · exact found

theorem owner?_into (inset : Inset g c n s s') (x : String) (id : Nat) :
    s'.owner? (into g c id) x = (s.owner? id x).map (shift g) := by
  unfold into
  split
  · rename_i same
    have outside := inset.owner?_shift x c
    rw [shift_of_lt inset.older] at outside
    rw [inset.aged'.owner?_eq, inset.slot_empty, inset.enclosing?_empty, same]
    exact outside
  · exact inset.owner?_shift x id

theorem get?_into (inset : Inset g c n s s') (id : Nat) (x : String) :
    s'.get? (into g c id) x = s.get? id x := by
  rw [get?_eq_slot, get?_eq_slot, inset.owner?_into]
  cases s.owner? id x with
  | none => rfl
  | some owner => exact inset.slot_shift owner x

theorem define (inset : Inset g c n s s') (id : Nat) (x : String) (v : Value) :
    Inset g c n (s.define id x v) (s'.define (shift g id) x v) where
  aged := inset.aged.define id x v
  older := inset.older
  inside := inset.inside
  size := (size_define s id x v).trans inset.size
  longer := (size_define s' _ x v).trans inset.longer
  below other below := by
    have same : shift g id = other ↔ id = other := by
      unfold shift
      split <;> omega
    simp only [getElem?_define, same, inset.below other below]
  empty := by rw [getElem?_define, if_neg (shift_ne g id), inset.empty]
  above other above := by
    have same : shift g id = other + 1 ↔ id = other := by
      unfold shift
      split <;> omega
    simp only [getElem?_define, same, inset.above other above]
    split
    · cases s.scopes[other]? <;> rfl
    · rfl

theorem add (inset : Inset g c n s s') {id : Nat} (bound : id < n) :
    Inset g c (n + 1) (s.add (some id)) (s'.add (some (into g c id))) where
  aged := inset.aged.add (by simp [inset.size, bound])
  older := inset.older
  inside := Nat.le_succ_of_le inset.inside
  size := by rw [size_add, inset.size]
  longer := by rw [size_add, inset.longer]
  below other below := by
    have inside := inset.inside
    rw [getElem?_add, getElem?_add, inset.size, inset.longer, if_neg (by omega),
      if_neg (by omega), inset.below other below]
  empty := by
    have inside := inset.inside
    rw [getElem?_add, inset.longer, if_neg (by omega), inset.empty]
  above other above := by
    simp only [getElem?_add, inset.size, inset.longer, Nat.add_right_cancel_iff]
    split
    · rfl
    · exact inset.above other above

theorem truncate (inset : Inset g c (n + 1) s s') (inside : g ≤ n) :
    Inset g c n (s.truncate n) (s'.truncate (n + 1)) where
  aged id outer link := by
    rw [enclosing?_truncate] at link
    split at link
    · exact inset.aged id outer link
    · nomatch link
  older := inset.older
  inside := inside
  size := size_truncate (by rw [inset.size]; omega)
  longer := size_truncate (by rw [inset.longer]; omega)
  below other below := by
    rw [getElem?_truncate, getElem?_truncate, if_pos (by omega), if_pos (by omega),
      inset.below other below]
  empty := by rw [getElem?_truncate, if_pos (by omega), inset.empty]
  above other above := by
    simp only [getElem?_truncate, Nat.add_lt_add_iff_right]
    split
    · exact inset.above other above
    · rfl

theorem top {s : Store} (aged : s.Aged) (inside : c < s.size) :
    Inset s.size c s.size s (s.add (some c)) where
  aged := aged
  older := inside
  inside := Nat.le_refl _
  size := rfl
  longer := size_add s _
  below id below := by rw [getElem?_add, if_neg (Nat.ne_of_lt below)]
  empty := by rw [getElem?_add, if_pos rfl]
  above id above := by
    have absent : s.scopes[id]? = none := Array.getElem?_eq_none above
    rw [getElem?_add, if_neg (by omega), absent]
    exact Array.getElem?_eq_none (Nat.le_succ_of_le above)

theorem truncate_eq (inset : Inset n c n s s') : s'.truncate n = s := by
  obtain ⟨scopes⟩ := s
  refine congrArg Store.mk (Array.ext_getElem? fun id => ?_)
  have found := getElem?_truncate s' n id
  have size : scopes.size = n := inset.size
  split at found
  · rename_i below
    exact found.trans (inset.below id below)
  · rename_i absent
    refine found.trans (Array.getElem?_eq_none ?_).symm
    omega

end Inset

end Store

open Store (Inset into shift)

section Evaluations

variable {g c n : Nat}

namespace Evaluation

theorem get_mirrors (id : Nat) (name : Token) :
    Mirrors (Inset g c n) (get id name) (get (into g c id) name) := by
  intro s s' inset
  rw [get_apply, get_apply, inset.get?_into]
  cases s.get? id name.lexeme with
  | none => exact .error inset
  | some v => exact .ok inset

theorem assign_mirrors (id : Nat) (name : Token) (v : Value) :
    Mirrors (Inset g c n) (assign id name v) (assign (into g c id) name v) := by
  intro s s' inset
  rw [assign_apply, assign_apply, inset.owner?_into]
  cases s.owner? id name.lexeme with
  | none => exact .error inset
  | some owner => exact .ok (inset.define owner name.lexeme v)

theorem ofExcept_mirrors {α : Type} (x : Except Stop α) :
    Mirrors (Inset g c n) (ofExcept x) (ofExcept x) := by
  cases x with
  | ok a => exact .pure a
  | error stop => exact .throw stop

end Evaluation

theorem Expr.eval_mirrors (id : Nat) (e : Expr) :
    Mirrors (Inset g c n) (e.eval id) (e.eval (into g c id)) := by
  induction e with
  | literal v => exact .pure v
  | var name => exact Evaluation.get_mirrors id name
  | assign name value ih =>
    exact ih.bind fun v => (Evaluation.assign_mirrors id name v).bind fun _ => .pure v
  | group inner ih => exact ih
  | unary operator right ih => exact ih.bind fun v => Evaluation.ofExcept_mirrors _
  | binary left operator right ihl ihr =>
    exact ihl.bind fun v => ihr.bind fun w => Evaluation.ofExcept_mirrors _
  | logical left operator right ihl ihr =>
    refine ihl.bind fun v => ?_
    split
    · exact .pure v
    · exact ihr
  | choice condition consequent alternate ihc iht ihe =>
    exact ihc.bind fun _ => iht.bind fun _ => ihe.bind fun _ => .pure _
  | step operand operator ih =>
    refine ih.bind fun old => (Evaluation.ofExcept_mirrors _).bind fun x => ?_
    cases operand with
    | var name => exact (Evaluation.assign_mirrors id name _).bind fun _ => .pure old
    | _ => exact (Mirrors.pure ()).bind fun _ => .pure old

end Evaluations

structure Machine.Inset (g c n : Nat) (m m' : Machine) : Prop where
  store : m.store.Inset g c n m'.store
  sink : m'.sink = m.sink

namespace Execution

variable {g c n : Nat}

theorem eval_mirrors (id : Nat) (e : Expr) :
    Mirrors (Machine.Inset g c n) (eval id e) (eval (into g c id) e) := by
  intro m m' inset
  have ends := e.eval_mirrors id m.store m'.store inset.store
  rw [eval, eval]
  generalize e.eval id m.store = r, e.eval (into g c id) m'.store = q at ends
  cases ends with
  | ok after => exact .ok ⟨after, inset.sink⟩
  | error after => exact .error ⟨after, inset.sink⟩

theorem define_mirrors {id : Nat} (other : id ≠ c) (name : Token) (v : Value) :
    Mirrors (Machine.Inset g c n) (define id name v) (define (into g c id) name v) := by
  intro m m' inset
  rw [Store.into_of_ne other]
  exact .ok ⟨inset.store.define id name.lexeme v, inset.sink⟩

theorem print_mirrors (keyword : Token) (v : Value) :
    Mirrors (Machine.Inset g c n) (print keyword v) (print keyword v) := by
  intro m m' inset
  rw [print_apply, print_apply, inset.sink]
  split
  · exact .ok ⟨inset.store, rfl⟩
  · exact .error ⟨inset.store, rfl⟩

theorem inScope_mirrors {id : Nat} {body body' : ScopeId → Execution Unit} (bound : id < n)
    (inside : Mirrors (Machine.Inset g c (n + 1)) (body n) (body' (into g c n))) :
    Mirrors (Machine.Inset g c n) (inScope id body) (inScope (into g c id) body') := by
  intro m m' inset
  have ends := inside { m with store := m.store.add (some id) }
    { m' with store := m'.store.add (some (into g c id)) } ⟨inset.store.add bound, inset.sink⟩
  have room := inset.store.inside
  rw [Store.into_of_le inset.store.older room] at ends
  simp only [inScope, inset.store.size, inset.store.longer]
  generalize body n _ = r, body' (n + 1) _ = q at ends
  cases ends with
  | ok after => exact .ok ⟨after.store.truncate room, after.sink⟩
  | error after => exact .error ⟨after.store.truncate room, after.sink⟩

theorem repeatWhile_mirrors {R : Machine → Machine → Prop} {condition condition' : Execution Value}
    {body body' : Execution Unit} (first : Mirrors R condition condition')
    (round : Mirrors R body body') (count : Nat) :
    Mirrors R (repeatWhile condition body count) (repeatWhile condition' body' count) := by
  induction count with
  | zero => exact .throw _
  | succ count ih =>
    intro m m' related
    have tested := first m m' related
    simp only [repeatWhile]
    generalize condition m = r, condition' m' = q at tested
    cases tested with
    | error after => exact .error after
    | @ok v after after' again =>
      dsimp only
      split
      · have ran := round after after' again
        generalize body after = r, body' after' = q at ran
        cases ran with
        | ok further => exact ih _ _ further
        | @error exit _ _ last =>
          cases exit with
          | left => exact .ok last
          | stop => exact .error last
      · exact .ok again

end Execution

namespace Stmt

variable {g c : Nat} (rounds : Nat)

mutual

/-- A statement runs alike with an empty scope put in, unless it would declare a name there. -/
theorem exec_mirrors : (s : Stmt) → {n : Nat} → c < g → g ≤ n → (id : Nat) → id < n →
    (id = c → s.declared = []) →
    Mirrors (Machine.Inset g c n) (s.exec rounds id) (s.exec rounds (into g c id))
  | .expr e, _, _, _, id, _, _ => (Execution.eval_mirrors id e).map _
  | .print keyword e, _, _, _, id, _, _ =>
    (Execution.eval_mirrors id e).bind fun v => Execution.print_mirrors keyword v
  | .declare name none, _, _, _, id, _, silent =>
    Execution.define_mirrors (fun same => nomatch silent same) name .nil
  | .declare name (some e), _, _, _, id, _, silent =>
    (Execution.eval_mirrors id e).bind fun v =>
      Execution.define_mirrors (fun same => nomatch silent same) name v
  | .block body, n, older, room, id, bound, _ =>
    Execution.inScope_mirrors bound (execAll_mirrors body older (Nat.le_succ_of_le room) n
      (Nat.lt_succ_self n) fun same => absurd same (by omega))
  | .branch condition consequent alternate, n, older, room, id, bound, _ => by
    refine (Execution.eval_mirrors id condition).bind fun v => ?_
    split
    · exact Execution.inScope_mirrors bound (execAll_mirrors consequent older
        (Nat.le_succ_of_le room) n (Nat.lt_succ_self n) fun same => absurd same (by omega))
    · exact Execution.inScope_mirrors bound (execAll_mirrors alternate older
        (Nat.le_succ_of_le room) n (Nat.lt_succ_self n) fun same => absurd same (by omega))
  | .loop condition body, n, older, room, id, bound, _ =>
    Execution.repeatWhile_mirrors (Execution.eval_mirrors id condition)
      (Execution.inScope_mirrors bound (exec_mirrors body older (Nat.le_succ_of_le room) n
        (Nat.lt_succ_self n) fun same => absurd same (by omega))) rounds
  | .leave _, _, _, _, _, _, _ => Mirrors.throw Exit.left

theorem execAll_mirrors : (body : List Stmt) → {n : Nat} → c < g → g ≤ n → (id : Nat) →
    id < n → (id = c → ∀ s ∈ body, s.declared = []) →
    Mirrors (Machine.Inset g c n) (execAll rounds id body) (execAll rounds (into g c id) body)
  | [], _, _, _, _, _, _ => .pure ()
  | s :: rest, _, older, room, id, bound, silent =>
    (exec_mirrors s older room id bound fun same => silent same s List.mem_cons_self).bind fun _ =>
      execAll_mirrors rest older room id bound fun same s member =>
        silent same s (List.mem_cons_of_mem _ member)

end

end Stmt

/-- A machine that can run something in a scope: the scope is there, and each is enclosed by an older
one. New machines are ready in their global scope, and all that runs leaves them ready. -/
structure Machine.Ready (scope : Nat) (m : Machine) : Prop where
  aged : m.store.Aged
  inside : scope < m.store.size

theorem Machine.ready_start (sink : Sink) : (start sink).Ready globalScope where
  aged := Store.Aged.empty.add (by simp)
  inside := Nat.zero_lt_one

theorem Machine.Ready.opened {scope : Nat} {m : Machine} (ready : m.Ready scope) :
    Machine.Ready m.store.size { m with store := m.store.add (some scope) } where
  aged := ready.aged.add (by simp [ready.inside])
  inside := by simp

theorem Machine.Framed.ready {targets : List String} {scope : Nat} {m m' : Machine}
    (framed : m.Framed targets scope m') (ready : m.Ready scope) : m'.Ready scope where
  aged := Store.Framed.aged framed ready.aged
  inside := Nat.lt_of_lt_of_eq ready.inside (Store.Framed.size framed).symm

variable {scope : Nat} {m : Machine}

theorem Execution.inScope_eq_of_mirrors {x : Execution Unit} {body : ScopeId → Execution Unit}
    (ready : m.Ready scope) (mirrors : Mirrors (Machine.Inset m.store.size scope m.store.size) x
      (body (into m.store.size scope scope))) :
    inScope scope body m = x m := by
  have ends := mirrors m { m with store := m.store.add (some scope) }
    ⟨.top ready.aged ready.inside, rfl⟩
  rw [Store.into_self] at ends
  simp only [inScope]
  generalize m.store.size = g at ends
  generalize x m = r, body g _ = q at ends
  cases ends with
  | @ok a s s' after =>
    have same : { s' with store := s'.store.truncate g } = s := by
      rw [after.store.truncate_eq, after.sink]
    exact congrArg (EStateM.Result.ok a) same
  | @error exit s s' after =>
    have same : { s' with store := s'.store.truncate g } = s := by
      rw [after.store.truncate_eq, after.sink]
    exact congrArg (EStateM.Result.error exit) same

namespace Stmt

theorem exec_ready (rounds : Nat) (s : Stmt) (ready : m.Ready scope) :
    (final (s.exec rounds scope m)).Ready scope := by
  have framed := s.exec_framed rounds (List.Subset.refl _) scope m ready.inside
  exact ⟨framed.aged ready.aged, Nat.lt_of_lt_of_eq ready.inside framed.size.symm⟩

theorem inScope_exec (rounds : Nat) {s : Stmt} (silent : s.declared = []) (ready : m.Ready scope) :
    Execution.inScope scope (fun inner => s.exec rounds inner) m = s.exec rounds scope m :=
  Execution.inScope_eq_of_mirrors ready
    (exec_mirrors rounds s ready.inside (Nat.le_refl _) scope ready.inside fun _ => silent)

theorem inScope_execAll (rounds : Nat) {body : List Stmt} (silent : ∀ s ∈ body, s.declared = [])
    (ready : m.Ready scope) :
    Execution.inScope scope (fun inner => execAll rounds inner body) m =
      execAll rounds scope body m :=
  Execution.inScope_eq_of_mirrors ready
    (execAll_mirrors rounds body ready.inside (Nat.le_refl _) scope ready.inside fun _ => silent)

end Stmt

end Scriptlet
