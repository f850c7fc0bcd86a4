import Scriptlet.Proofs.Stack

/-! Looking outwards from a scope. In a store where every scope is enclosed by an older one, a name is
looked up in the nearest scope that binds it, however the scopes are shared; an assignment overwrites
what that scope binds and touches nothing else. -/
namespace Scriptlet

namespace Store

def slot (s : Store) (id : ScopeId) (name : String) : Option Value :=
  s.scopes[id]?.bind (·.get? name)

def enclosing? (s : Store) (id : ScopeId) : Option ScopeId :=
  s.scopes[id]?.bind (·.enclosing)

/-- The scopes from one outwards. -/
inductive OnChain (s : Store) : ScopeId → ScopeId → Prop
  | here {id : ScopeId} : OnChain s id id
  | outward {id outer far : ScopeId} : s.enclosing? id = some outer → OnChain s outer far →
      OnChain s id far

/-- The first scope from one outwards that binds a name. -/
inductive Nearest (s : Store) (name : String) : ScopeId → ScopeId → Prop
  | here {id : ScopeId} {v : Value} : s.slot id name = some v → Nearest s name id id
  | outward {id outer owner : ScopeId} : s.slot id name = none → s.enclosing? id = some outer →
      Nearest s name outer owner → Nearest s name id owner

/-- Scopes are enclosed by older ones only. -/
def Aged (s : Store) : Prop :=
  ∀ id outer, s.enclosing? id = some outer → outer < id

variable {s : Store} {name : String} {id owner : ScopeId}

theorem Nearest.bound (nearest : s.Nearest name id owner) : ∃ v, s.slot owner name = some v := by
  induction nearest with
  | here bound => exact ⟨_, bound⟩
  | outward _ _ _ ih => exact ih

theorem OnChain.exists_nearest {far : ScopeId} (chain : s.OnChain id far) {v : Value}
    (bound : s.slot far name = some v) : ∃ owner, s.Nearest name id owner := by
  induction chain with
  | here => exact ⟨_, .here bound⟩
  | @outward id outer far link _ ih =>
    obtain ⟨owner, nearest⟩ := ih bound
    cases here : s.slot id name with
    | some w => exact ⟨id, .here here⟩
    | none => exact ⟨owner, .outward here link nearest⟩

theorem Nearest.onChain (nearest : s.Nearest name id owner) : s.OnChain id owner := by
  induction nearest with
  | here => exact .here
  | outward _ link _ ih => exact .outward link ih

theorem ownerWithin_succ (s : Store) (name : String) (count : Nat) (id : ScopeId) :
    s.ownerWithin name (count + 1) id =
      if (s.slot id name).isSome then some id
      else (s.enclosing? id).bind (s.ownerWithin name count) := by
  rw [ownerWithin, slot, enclosing?]
  cases s.scopes[id]? with
  | none => rfl
  | some scope =>
    simp only [Option.bind_some, Scope.binds]
    cases scope.enclosing <;> rfl

theorem ownerWithin_eq_some_iff (aged : s.Aged) {count : Nat} (enough : id < count) :
    s.ownerWithin name count id = some owner ↔ s.Nearest name id owner := by
  induction count generalizing id with
  | zero => exact absurd enough (Nat.not_lt_zero id)
  | succ count ih =>
    rw [ownerWithin_succ]
    cases bound : s.slot id name with
    | some v =>
      simp only [Option.isSome_some, if_true, Option.some.injEq]
      constructor
      · rintro rfl
        exact .here bound
      · intro nearest
        cases nearest with
        | here => rfl
        | outward unbound => simp [bound] at unbound
    | none =>
      simp only [Option.isSome_none, Bool.false_eq_true, if_false, Option.bind_eq_some_iff]
      have room {outer : ScopeId} (link : s.enclosing? id = some outer) : outer < count :=
        Nat.lt_of_lt_of_le (aged id outer link) (Nat.le_of_lt_succ enough)
      constructor
      · rintro ⟨outer, link, found⟩
        exact .outward bound link ((ih (room link)).1 found)
      · intro nearest
        cases nearest with
        | here here => simp [bound] at here
        | outward _ link further => exact ⟨_, link, (ih (room link)).2 further⟩

theorem owner?_eq_some_iff (aged : s.Aged) :
    s.owner? id name = some owner ↔ s.Nearest name id owner :=
  ownerWithin_eq_some_iff aged (Nat.lt_succ_self id)

theorem Nearest.unique (aged : s.Aged) {other : ScopeId} (nearest : s.Nearest name id owner)
    (nearest' : s.Nearest name id other) : owner = other := by
  rw [← owner?_eq_some_iff aged] at nearest nearest'
  exact Option.some.inj (nearest.symm.trans nearest')

theorem owner?_eq_none_iff (aged : s.Aged) :
    s.owner? id name = none ↔ ∀ far, s.OnChain id far → s.slot far name = none := by
  constructor
  · intro none far chain
    cases bound : s.slot far name with
    | none => rfl
    | some v =>
      obtain ⟨owner, nearest⟩ := chain.exists_nearest bound
      rw [(owner?_eq_some_iff aged).2 nearest] at none
      nomatch none
  · intro unbound
    cases found : s.owner? id name with
    | none => rfl
    | some owner =>
      have nearest := (owner?_eq_some_iff aged).1 found
      obtain ⟨v, bound⟩ := nearest.bound
      rw [unbound owner nearest.onChain] at bound
      nomatch bound

/-- The count of scopes does not matter once it is large enough. -/
theorem Aged.owner?_eq (aged : s.Aged) (id : ScopeId) (name : String) :
    s.owner? id name =
      if (s.slot id name).isSome then some id else (s.enclosing? id).bind (s.owner? · name) := by
  have further {outer : ScopeId} (link : s.enclosing? id = some outer) :
      s.ownerWithin name id outer = s.owner? outer name := by
    refine Option.ext fun owner => ?_
    rw [ownerWithin_eq_some_iff aged (aged id outer link), owner?_eq_some_iff aged]
  rw [owner?, ownerWithin_succ]
  cases link : s.enclosing? id with
  | none => rfl
  | some outer => simp only [Option.bind_some, further link]

theorem get?_eq_slot (s : Store) (id : ScopeId) (name : String) :
    s.get? id name = (s.owner? id name).bind (s.slot · name) := rfl

section Calls

variable {t : Token} {v : Value} {g : Failure}

theorem get_eq_ok_iff (aged : s.Aged) :
    s.get id t = .ok v ↔
      ∃ owner, s.Nearest t.lexeme id owner ∧ s.slot owner t.lexeme = some v := by
  simp only [← owner?_eq_some_iff aged, ← Option.bind_eq_some_iff, ← get?_eq_slot, get]
  cases s.get? id t.lexeme <;> simp

theorem get_eq_error_iff (aged : s.Aged) :
    s.get id t = .error g ↔
      g = .undefined t ∧ ∀ far, s.OnChain id far → s.slot far t.lexeme = none := by
  rw [← owner?_eq_none_iff aged, get, get?_eq_slot]
  cases found : s.owner? id t.lexeme with
  | none => simp [eq_comm]
  | some owner =>
    obtain ⟨v, bound⟩ := ((owner?_eq_some_iff aged).1 found).bound
    simp [bound]

theorem assign_eq_ok_iff (aged : s.Aged) {s' : Store} :
    s.assign id t v = .ok s' ↔
      ∃ owner, s.Nearest t.lexeme id owner ∧ s' = s.define owner t.lexeme v := by
  simp only [← owner?_eq_some_iff aged, assign]
  cases s.owner? id t.lexeme <;> simp [eq_comm]

theorem assign_eq_error_iff (aged : s.Aged) :
    s.assign id t v = .error g ↔
      g = .undefined t ∧ ∀ far, s.OnChain id far → s.slot far t.lexeme = none := by
  rw [← owner?_eq_none_iff aged, assign]
  cases s.owner? id t.lexeme <;> simp [eq_comm]

end Calls

theorem slot_eq_none (absent : s.size ≤ id) (name : String) : s.slot id name = none := by
  have outside : s.scopes[id]? = none := Array.getElem?_eq_none absent
  rw [slot, outside]
  rfl

theorem slot_define (inside : id < s.size) (v : Value) (other : ScopeId) (x : String) :
    (s.define id name v).slot other x =
      if other = id ∧ x = name then some v else s.slot other x := by
  rw [slot, slot, getElem?_define]
  by_cases here : id = other
  · subst here
    have present : s.scopes[id]? = some s.scopes[id] := Array.getElem?_eq_getElem inside
    by_cases same : x = name
    · simp [present, same, Scope.get?, Scope.put]
    · simp [present, same, Scope.get?, Scope.put, Bindings.lookup_put_of_ne same]
  · simp [here, Ne.symm here]

@[simp] theorem enclosing?_define (s : Store) (id other : ScopeId) (name : String) (v : Value) :
    (s.define id name v).enclosing? other = s.enclosing? other := by
  rw [enclosing?, enclosing?, getElem?_define]
  split
  · cases s.scopes[other]? <;> rfl
  · rfl

theorem slot_add (s : Store) (enclosing : Option ScopeId) (id : ScopeId) (name : String) :
    (s.add enclosing).slot id name = s.slot id name := by
  rw [slot, slot, add, Array.getElem?_push]
  split
  · rename_i last
    rw [last, Array.getElem?_eq_none (Nat.le_refl _)]
    rfl
  · rfl

theorem enclosing?_add (s : Store) (enclosing : Option ScopeId) (id : ScopeId) :
    (s.add enclosing).enclosing? id = if id = s.size then enclosing else s.enclosing? id := by
  rw [enclosing?, enclosing?, add, size, Array.getElem?_push]
  split <;> rfl

theorem Nearest.inside (nearest : s.Nearest name id owner) : owner < s.size := by
  obtain ⟨v, bound⟩ := nearest.bound
  by_contra absent
  rw [slot_eq_none (Nat.le_of_not_lt absent)] at bound
  nomatch bound

structure Updated (s : Store) (id : ScopeId) (name : String) (v : Value) (s' : Store) : Prop where
  size : s'.size = s.size
  links : ∀ other, s'.enclosing? other = s.enclosing? other
  stored : s'.slot id name = some v
  others : ∀ other x, other ≠ id ∨ x ≠ name → s'.slot other x = s.slot other x

theorem updated_define (inside : id < s.size) (v : Value) :
    s.Updated id name v (s.define id name v) where
  size := size_define s id name v
  links other := enclosing?_define s id other name v
  stored := by rw [slot_define inside, if_pos ⟨rfl, rfl⟩]
  others other x different := by
    rw [slot_define inside, if_neg]
    rintro ⟨rfl, rfl⟩
    simp at different

/-- A store in which a binding that was there has another value. -/
structure Overwritten (s : Store) (owner : ScopeId) (name : String) (v : Value) (s' : Store) : Prop
    extends s.Updated owner name v s' where
  bound : ∃ old, s.slot owner name = some old

theorem Nearest.overwritten (nearest : s.Nearest name id owner) (v : Value) :
    s.Overwritten owner name v (s.define owner name v) :=
  ⟨updated_define nearest.inside v, nearest.bound⟩

structure Grown (s : Store) (enclosing : Option ScopeId) (s' : Store) : Prop where
  size : s'.size = s.size + 1
  link : s'.enclosing? s.size = enclosing
  bare : ∀ name, s'.slot s.size name = none
  links : ∀ id, id ≠ s.size → s'.enclosing? id = s.enclosing? id
  slots : ∀ id name, id ≠ s.size → s'.slot id name = s.slot id name

theorem grown_add (s : Store) (enclosing : Option ScopeId) : s.Grown enclosing (s.add enclosing) where
  size := size_add s enclosing
  link := by rw [enclosing?_add, if_pos rfl]
  bare name := by rw [slot_add, slot_eq_none (Nat.le_refl _)]
  links id other := by rw [enclosing?_add, if_neg other]
  slots id name _ := slot_add s enclosing id name

namespace Aged

theorem empty : Store.empty.Aged := by
  intro id outer link
  simp [enclosing?, Store.empty] at link

theorem define (aged : s.Aged) (id : ScopeId) (name : String) (v : Value) :
    (s.define id name v).Aged := by
  intro other outer link
  rw [enclosing?_define] at link
  exact aged other outer link

theorem add (aged : s.Aged) {enclosing : Option ScopeId} (older : ∀ outer ∈ enclosing, outer < s.size) :
    (s.add enclosing).Aged := by
  intro id outer link
  rw [enclosing?_add] at link
  split at link
  · rename_i last
    rw [last]
    exact older outer link
  · exact aged id outer link

end Aged

end Store

end Scriptlet
