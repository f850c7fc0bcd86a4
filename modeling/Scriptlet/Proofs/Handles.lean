import Mathlib.Data.List.Basic
import Scriptlet.Proofs.Results
import Scriptlet.Proofs.Scopes

/-! Scopes that are shared. A handle is given out when a scope is opened, at the top or inside another
one, and when a handle is copied, so any number of them may name one scope. Who looks at a scope holds
it for reading, who changes it holds it alone, and a walk outwards keeps hold of every scope it has
passed. Whatever is done through handles, enclosing scopes are older: so every walk ends, none asks for
a scope that is taken, and a name means what was last stored in the nearest scope that binds it. -/
namespace Scriptlet

structure Hold where
  scope : ScopeId
  alone : Bool
deriving DecidableEq

/-- Scopes, and who holds them. -/
structure Cells where
  store : Store
  holds : List Hold

/-- A scope that does not exist, one that is held already, or a walk that passes more scopes than there
are. -/
inductive HoldError where
  | missing
  | taken
  | endless

abbrev CellsAction := EStateM HoldError Cells

namespace Cells

def borrow (alone : Bool) (id : ScopeId) : CellsAction Scope :=
  fun c =>
    match c.store.scopes[id]? with
    | none => .error .missing c
    | some scope =>
      if c.holds.any fun h => h.scope = id && (alone || h.alone) then .error .taken c
      else .ok scope { c with holds := ⟨id, alone⟩ :: c.holds }

def release (alone : Bool) (id : ScopeId) : CellsAction Unit :=
  modify fun c => { c with holds := c.holds.erase ⟨id, alone⟩ }

/-- Does something with a scope and gives it back in the end. -/
def holding {α : Type} (alone : Bool) (id : ScopeId) (body : Scope → CellsAction α) : CellsAction α := do
  let scope ← borrow alone id
  let a ← body scope
  release alone id
  return a

def put (id : ScopeId) (name : String) (v : Value) : CellsAction Unit :=
  modify fun c => { c with store := c.store.define id name v }

def define (id : ScopeId) (name : String) (v : Value) : CellsAction Unit :=
  holding true id fun _ => put id name v

def get (name : Token) : (count : Nat) → ScopeId → CellsAction (Except Failure Value)
  | 0, _ => throw .endless
  | count + 1, id => holding false id fun scope =>
    match scope.get? name.lexeme with
    | some v => return .ok v
    | none =>
      match scope.enclosing with
      | some outer => get name count outer
      | none => return .error (.undefined name)

def assign (name : Token) (v : Value) : (count : Nat) → ScopeId → CellsAction (Except Failure Unit)
  | 0, _ => throw .endless
  | count + 1, id => holding true id fun scope =>
    match scope.get? name.lexeme with
    | some _ => do
      put id name.lexeme v
      return .ok ()
    | none =>
      match scope.enclosing with
      | some outer => assign name v count outer
      | none => return .error (.undefined name)

section Walks

variable {s : Store} {holds : List Hold} {id : ScopeId}

/-- Only younger scopes are held, so this one is free, and it is free again afterwards. -/
theorem holding_eq {α : Type} {alone : Bool} {body : Scope → CellsAction α} {scope : Scope}
    (present : s.scopes[id]? = some scope) (younger : ∀ h ∈ holds, id < h.scope) {a : α} {s' : Store}
    (ends : body scope ⟨s, ⟨id, alone⟩ :: holds⟩ = .ok a ⟨s', ⟨id, alone⟩ :: holds⟩) :
    holding alone id body ⟨s, holds⟩ = .ok a ⟨s', holds⟩ := by
  have free : (holds.any fun h => h.scope = id && (alone || h.alone)) = false := by
    rw [List.any_eq_false]
    intro h member
    have other : h.scope ≠ id := Nat.ne_of_gt (younger h member)
    simp [other]
  have taken : borrow alone id ⟨s, holds⟩ = .ok scope ⟨s, ⟨id, alone⟩ :: holds⟩ := by
    simp only [borrow, present, free, Bool.false_eq_true, if_false]
  have given : release alone id ⟨s', ⟨id, alone⟩ :: holds⟩ = .ok () ⟨s', holds⟩ := by
    have others : (⟨id, alone⟩ :: holds).erase ⟨id, alone⟩ = holds := List.erase_cons_head _ _
    nth_rewrite 2 [← others]
    rfl
  rw [holding, bind_of_ok taken, bind_of_ok ends, bind_of_ok given]
  rfl

theorem define_eq (inside : id < s.size) (name : String) (v : Value) :
    define id name v ⟨s, []⟩ = .ok () ⟨s.define id name v, []⟩ :=
  holding_eq (Array.getElem?_eq_getElem inside) (by simp) rfl

theorem outward_younger (aged : s.Aged) {outer : ScopeId} (link : s.enclosing? id = some outer)
    (younger : ∀ h ∈ holds, id < h.scope) (alone : Bool) :
    ∀ h ∈ (⟨id, alone⟩ :: holds : List Hold), outer < h.scope := by
  have older := aged id outer link
  intro h member
  obtain rfl | before := List.mem_cons.1 member
  · exact older
  · exact Nat.lt_trans older (younger h before)

theorem get_eq (aged : s.Aged) (name : Token) {count : Nat} (enough : id < count)
    (inside : id < s.size) (younger : ∀ h ∈ holds, id < h.scope) :
    get name count id ⟨s, holds⟩ = .ok (s.get id name) ⟨s, holds⟩ := by
  induction count generalizing id holds with
  | zero => exact absurd enough (Nat.not_lt_zero id)
  | succ count ih =>
    have present : s.scopes[id]? = some s.scopes[id] := Array.getElem?_eq_getElem inside
    have slot : s.scopes[id].get? name.lexeme = s.slot id name.lexeme := by
      simp [Store.slot, present]
    have link : s.scopes[id].enclosing = s.enclosing? id := by simp [Store.enclosing?, present]
    refine holding_eq present younger ?_
    rw [slot, link, Store.get, Store.get?_eq_slot, aged.owner?_eq]
    cases bound : s.slot id name.lexeme with
    | some v => simp [bound, pure, EStateM.pure]
    | none =>
      cases outward : s.enclosing? id with
      | none => rfl
      | some outer =>
        have older := aged id outer outward
        exact ih (Nat.lt_of_lt_of_le older (Nat.le_of_lt_succ enough))
          (Nat.lt_trans older inside) (outward_younger aged outward younger false)

theorem assign_eq (aged : s.Aged) (name : Token) (v : Value) {count : Nat} (enough : id < count)
    (inside : id < s.size) (younger : ∀ h ∈ holds, id < h.scope) :
    assign name v count id ⟨s, holds⟩ =
      .ok ((s.assign id name v).map fun _ => ()) ⟨(s.assign id name v).toOption.getD s, holds⟩ := by
  induction count generalizing id holds with
  | zero => exact absurd enough (Nat.not_lt_zero id)
  | succ count ih =>
    have present : s.scopes[id]? = some s.scopes[id] := Array.getElem?_eq_getElem inside
    have slot : s.scopes[id].get? name.lexeme = s.slot id name.lexeme := by
      simp [Store.slot, present]
    have link : s.scopes[id].enclosing = s.enclosing? id := by simp [Store.enclosing?, present]
    refine holding_eq present younger ?_
    rw [slot, link, Store.assign, aged.owner?_eq]
    cases bound : s.slot id name.lexeme with
    | some w => rfl
    | none =>
      cases outward : s.enclosing? id with
      | none => rfl
      | some outer =>
        have older := aged id outer outward
        exact ih (Nat.lt_of_lt_of_le older (Nat.le_of_lt_succ enough))
          (Nat.lt_trans older inside) (outward_younger aged outward younger true)

-- without the order of age it would fail: here a scope encloses itself and is asked for twice
example (name : Token) (v : Value) :
    ∃ c, assign name v 2 0 ⟨⟨#[⟨[], some 0⟩]⟩, []⟩ = .error .taken c := ⟨_, rfl⟩

end Walks

end Cells

structure Forest where
  cells : Cells
  handles : List ScopeId

abbrev ForestAction := EStateM HoldError Forest

namespace Forest

/-- What can be done to scopes. A handle is told by how many were given out before it. -/
inductive Op where
  | new
  | nest (handle : Nat)
  | share (handle : Nat)
  | define (handle : Nat) (name : String) (v : Value)
  | get (handle : Nat) (name : Token)
  | assign (handle : Nat) (name : Token) (v : Value)

namespace Op

def handle? : Op → Option Nat
  | .new => none
  | .nest handle => some handle
  | .share handle => some handle
  | .define handle _ _ => some handle
  | .get handle _ => some handle
  | .assign handle _ _ => some handle

end Op

inductive Answer where
  | handle (number : Nat)
  | done
  | value (v : Value)
  | failed (f : Failure)
  | unknown

namespace Answer

def ofValue : Except Failure Value → Answer
  | .ok v => .value v
  | .error f => .failed f

def ofDone : Except Failure Unit → Answer
  | .ok _ => .done
  | .error f => .failed f

end Answer

def empty : Forest :=
  ⟨⟨.empty, []⟩, []⟩

def hand (id : ScopeId) : ForestAction Answer :=
  fun f => .ok (.handle f.handles.length) { f with handles := f.handles ++ [id] }

def opened (enclosing : Option ScopeId) : ForestAction Answer :=
  fun f => hand f.cells.store.size
    { f with cells := { f.cells with store := f.cells.store.add enclosing } }

def access {α : Type} (a : CellsAction α) : ForestAction α :=
  fun f =>
    match a f.cells with
    | .ok x cells => .ok x { f with cells }
    | .error e cells => .error e { f with cells }

def through (handle : Nat) (body : ScopeId → ForestAction Answer) : ForestAction Answer :=
  fun f =>
    match f.handles[handle]? with
    | some id => body id f
    | none => .ok .unknown f

/-- A walk from a scope may pass as many scopes as there were when it was opened. -/
def perform : Op → ForestAction Answer
  | .new => opened none
  | .nest handle => through handle fun id => opened (some id)
  | .share handle => through handle hand
  | .define handle name v => through handle fun id => do
    access (Cells.define id name v)
    return .done
  | .get handle name => through handle fun id => do
    return .ofValue (← access (Cells.get name (id + 1) id))
  | .assign handle name v => through handle fun id => do
    return .ofDone (← access (Cells.assign name v (id + 1) id))

/-- Operations one after the other, from no scopes on. -/
inductive Run : List Op → List Answer → Forest → Prop
  | start : Run [] [] empty
  | step {ops : List Op} {answers : List Answer} {f f' : Forest} {op : Op} {answer : Answer} :
      Run ops answers f → perform op f = .ok answer f' → Run (ops ++ [op]) (answers ++ [answer]) f'

inductive Stores (f : Forest) (id : ScopeId) (name : String) (v : Value) : Op → Prop
  | define {handle : Nat} : f.handles[handle]? = some id → Stores f id name v (.define handle name v)
  | assign {handle : Nat} {inner : ScopeId} {t : Token} : f.handles[handle]? = some inner →
      t.lexeme = name → f.cells.store.Nearest name inner id → Stores f id name v (.assign handle t v)

/-- The last of these operations to store something under a name of a scope stored this value. -/
inductive Latest (id : ScopeId) (name : String) : List Op → Value → Prop
  | now {ops : List Op} {answers : List Answer} {f : Forest} {op : Op} {v : Value} :
      Run ops answers f → f.Stores id name v op → Latest id name (ops ++ [op]) v
  | still {ops : List Op} {answers : List Answer} {f : Forest} {op : Op} {v : Value} :
      Latest id name ops v → Run ops answers f → (∀ w, ¬ f.Stores id name w op) →
      Latest id name (ops ++ [op]) v

/-- What an operation answers and what it does. -/
inductive Effect (f : Forest) : Op → Answer → Forest → Prop
  | new {f' : Forest} : f'.handles = f.handles ++ [f.cells.store.size] →
      f.cells.store.Grown none f'.cells.store →
      Effect f .new (.handle f.handles.length) f'
  | nest {handle : Nat} {id : ScopeId} {f' : Forest} : f.handles[handle]? = some id →
      f'.handles = f.handles ++ [f.cells.store.size] →
      f.cells.store.Grown (some id) f'.cells.store →
      Effect f (.nest handle) (.handle f.handles.length) f'
  | share {handle : Nat} {id : ScopeId} : f.handles[handle]? = some id →
      Effect f (.share handle) (.handle f.handles.length) { f with handles := f.handles ++ [id] }
  | define {handle : Nat} {id : ScopeId} {name : String} {v : Value} {f' : Forest} :
      f.handles[handle]? = some id → f'.handles = f.handles →
      f.cells.store.Updated id name v f'.cells.store →
      Effect f (.define handle name v) .done f'
  | get {handle : Nat} {id owner : ScopeId} {t : Token} {v : Value} : f.handles[handle]? = some id →
      f.cells.store.Nearest t.lexeme id owner → f.cells.store.slot owner t.lexeme = some v →
      Effect f (.get handle t) (.value v) f
  | assign {handle : Nat} {id owner : ScopeId} {t : Token} {v : Value} {f' : Forest} :
      f.handles[handle]? = some id → f.cells.store.Nearest t.lexeme id owner →
      f'.handles = f.handles → f.cells.store.Overwritten owner t.lexeme v f'.cells.store →
      Effect f (.assign handle t v) .done f'
  | unbound {op : Op} {handle : Nat} {id : ScopeId} {t : Token} : f.handles[handle]? = some id →
      (op = .get handle t ∨ ∃ v, op = .assign handle t v) →
      (∀ far, f.cells.store.OnChain id far → f.cells.store.slot far t.lexeme = none) →
      Effect f op (.failed (.undefined t)) f
  | unknown {op : Op} {handle : Nat} : op.handle? = some handle → f.handles[handle]? = none →
      Effect f op .unknown f

/-- What holds of a forest after every operation. -/
structure Sound (f : Forest) : Prop where
  aged : f.cells.store.Aged
  idle : f.cells.holds = []
  inside : ∀ id ∈ f.handles, id < f.cells.store.size

section Steps

variable {f : Forest} {handle : Nat} {id : ScopeId}

theorem through_eq (named : f.handles[handle]? = some id) (body : ScopeId → ForestAction Answer) :
    through handle body f = body id f := by
  simp only [through, named]

theorem access_eq {α : Type} {a : CellsAction α} {x : α} {cells : Cells}
    (ends : a f.cells = .ok x cells) : access a f = .ok x { f with cells } := by
  simp only [access, ends]

namespace Sound

theorem cells_eq (sound : f.Sound) : f.cells = ⟨f.cells.store, []⟩ := by
  rw [← sound.idle]

theorem named (sound : f.Sound) (named : f.handles[handle]? = some id) : id < f.cells.store.size :=
  sound.inside id (List.mem_of_getElem? named)

theorem hand (sound : f.Sound) (inside : id < f.cells.store.size) :
    Sound { f with handles := f.handles ++ [id] } where
  aged := sound.aged
  idle := sound.idle
  inside other member := by
    obtain before | last := List.mem_append.1 member
    · exact sound.inside other before
    · rwa [List.mem_singleton.1 last]

theorem opened (sound : f.Sound) {enclosing : Option ScopeId}
    (older : ∀ outer ∈ enclosing, outer < f.cells.store.size) :
    Sound ⟨{ f.cells with store := f.cells.store.add enclosing },
      f.handles ++ [f.cells.store.size]⟩ := by
  have grown := Store.size_add f.cells.store enclosing
  have added : Sound { f with cells := { f.cells with store := f.cells.store.add enclosing } } :=
    { aged := sound.aged.add older
      idle := sound.idle
      inside := fun id member => by
        rw [grown]
        exact Nat.lt_succ_of_lt (sound.inside id member) }
  refine added.hand ?_
  rw [grown]
  exact Nat.lt_succ_self _

theorem stored (sound : f.Sound) (id : ScopeId) (name : String) (v : Value) :
    Sound { f with cells := ⟨f.cells.store.define id name v, []⟩ } where
  aged := sound.aged.define id name v
  idle := rfl
  inside other member := by
    rw [Store.size_define]
    exact sound.inside other member

theorem get_eq (sound : f.Sound) (named : f.handles[handle]? = some id) (name : Token) :
    perform (.get handle name) f = .ok (.ofValue (f.cells.store.get id name)) f := by
  have walk : Cells.get name (id + 1) id f.cells = .ok (f.cells.store.get id name) f.cells := by
    rw [sound.cells_eq]
    exact Cells.get_eq sound.aged name (Nat.lt_succ_self id) (sound.named named) (by simp)
  rw [perform, through_eq named, bind_of_ok (access_eq walk)]
  rfl

theorem assign_walk (sound : f.Sound) (named : f.handles[handle]? = some id) (name : Token)
    (v : Value) :
    perform (.assign handle name v) f =
      .ok (.ofDone ((f.cells.store.assign id name v).map fun _ => ()))
        { f with cells := ⟨(f.cells.store.assign id name v).toOption.getD f.cells.store, []⟩ } := by
  have walk := @Cells.assign_eq _ [] _ sound.aged name v _ (Nat.lt_succ_self id)
    (sound.named named) (by simp)
  rw [← sound.cells_eq] at walk
  rw [perform, through_eq named, bind_of_ok (access_eq walk)]
  rfl

theorem assign_eq (sound : f.Sound) (named : f.handles[handle]? = some id) {name : Token}
    {owner : ScopeId} (found : f.cells.store.owner? id name.lexeme = some owner) (v : Value) :
    perform (.assign handle name v) f =
      .ok .done { f with cells := ⟨f.cells.store.define owner name.lexeme v, []⟩ } := by
  rw [sound.assign_walk named, Store.assign, found]
  rfl

theorem assign_unowned (sound : f.Sound) (named : f.handles[handle]? = some id) {name : Token}
    (unowned : f.cells.store.owner? id name.lexeme = none) (v : Value) :
    perform (.assign handle name v) f = .ok (.failed (.undefined name)) f := by
  have walk := sound.assign_walk named name v
  rw [Store.assign, unowned] at walk
  have same : { f with cells := ⟨f.cells.store, []⟩ } = f := by
    rw [← sound.cells_eq]
  exact walk.trans (congrArg _ same)

theorem define_eq (sound : f.Sound) (named : f.handles[handle]? = some id) (name : String)
    (v : Value) :
    perform (.define handle name v) f =
      .ok .done { f with cells := ⟨f.cells.store.define id name v, []⟩ } := by
  have walk := Cells.define_eq (sound.named named) name v
  rw [← sound.cells_eq] at walk
  rw [perform, through_eq named, bind_of_ok (access_eq walk)]
  rfl

end Sound

end Steps

theorem perform_unknown {f : Forest} {op : Op} {handle : Nat} (uses : op.handle? = some handle)
    (unknown : f.handles[handle]? = none) : perform op f = .ok .unknown f := by
  cases op with
  | new => nomatch uses
  | _ =>
    obtain rfl := Option.some.inj uses
    simp only [perform, through, unknown]

theorem Sound.perform {f : Forest} (sound : f.Sound) (op : Op) :
    ∃ answer f', Forest.perform op f = .ok answer f' ∧ f.Effect op answer f' ∧ f'.Sound := by
  by_cases known : ∀ handle ∈ op.handle?, ∃ id, f.handles[handle]? = some id
  case neg =>
    obtain ⟨handle, uses, unknown⟩ := by simpa using known
    have none : f.handles[handle]? = none := Option.eq_none_iff_forall_ne_some.2 unknown
    exact ⟨.unknown, f, perform_unknown uses none, .unknown uses none, sound⟩
  cases op with
  | new => exact ⟨_, _, rfl, .new rfl (Store.grown_add _ none), sound.opened (by simp)⟩
  | nest handle =>
    obtain ⟨id, named⟩ := known handle rfl
    rw [Forest.perform, through_eq named]
    exact ⟨_, _, rfl, .nest named rfl (Store.grown_add _ (some id)),
      sound.opened (by simpa using sound.named named)⟩
  | share handle =>
    obtain ⟨id, named⟩ := known handle rfl
    rw [Forest.perform, through_eq named]
    exact ⟨_, _, rfl, .share named, sound.hand (sound.named named)⟩
  | define handle name v =>
    obtain ⟨id, named⟩ := known handle rfl
    exact ⟨_, _, sound.define_eq named name v,
      .define named rfl (Store.updated_define (sound.named named) v), sound.stored id name v⟩
  | get handle t =>
    obtain ⟨id, named⟩ := known handle rfl
    refine ⟨_, f, sound.get_eq named t, ?_, sound⟩
    cases found : f.cells.store.get id t with
    | ok v =>
      obtain ⟨owner, nearest, bound⟩ := (Store.get_eq_ok_iff sound.aged).1 found
      exact .get named nearest bound
    | error g =>
      obtain ⟨rfl, unbound⟩ := (Store.get_eq_error_iff sound.aged).1 found
      exact .unbound named (.inl rfl) unbound
  | assign handle t v =>
    obtain ⟨id, named⟩ := known handle rfl
    cases found : f.cells.store.owner? id t.lexeme with
    | none =>
      have unbound := (Store.owner?_eq_none_iff sound.aged).1 found
      exact ⟨_, _, sound.assign_unowned named found v, .unbound named (.inr ⟨v, rfl⟩) unbound, sound⟩
    | some owner =>
      have nearest := (Store.owner?_eq_some_iff sound.aged).1 found
      exact ⟨_, _, sound.assign_eq named found v, .assign named nearest rfl (nearest.overwritten v),
        sound.stored owner t.lexeme v⟩

section Slots

variable {f f' : Forest} {op : Op} {id : ScopeId} {name : String} {v : Value}

theorem slot_iff_of_same (same : f'.cells.store.slot id name = f.cells.store.slot id name)
    (none : ∀ w, ¬ f.Stores id name w op) :
    f'.cells.store.slot id name = some v ↔
      f.Stores id name v op ∨ f.cells.store.slot id name = some v ∧ ∀ w, ¬ f.Stores id name w op := by
  rw [same]
  exact ⟨fun bound => .inr ⟨bound, none⟩, fun stored => stored.elim (absurd · (none v)) And.left⟩

theorem slot_iff_of_updated {place : ScopeId} {x : String} {w : Value}
    (updated : f.cells.store.Updated place x w f'.cells.store)
    (only : ∀ id name v, f.Stores id name v op ↔ id = place ∧ name = x ∧ v = w) :
    f'.cells.store.slot id name = some v ↔
      f.Stores id name v op ∨ f.cells.store.slot id name = some v ∧ ∀ w, ¬ f.Stores id name w op := by
  by_cases here : id = place ∧ name = x
  · obtain ⟨rfl, rfl⟩ := here
    simp [only, updated.stored, eq_comm]
  · have elsewhere : id ≠ place ∨ name ≠ x := by tauto
    refine slot_iff_of_same (updated.others id name elsewhere) fun w stores => here ?_
    obtain ⟨place, same, -⟩ := (only id name w).1 stores
    exact ⟨place, same⟩

theorem Effect.slot_iff {answer : Answer} (effect : f.Effect op answer f') (sound : f.Sound) :
    f'.cells.store.slot id name = some v ↔
      f.Stores id name v op ∨ f.cells.store.slot id name = some v ∧ ∀ w, ¬ f.Stores id name w op := by
  have grown {enclosing : Option ScopeId} (grows : f.cells.store.Grown enclosing f'.cells.store) :
      f'.cells.store.slot id name = f.cells.store.slot id name := by
    by_cases last : id = f.cells.store.size
    · rw [last, grows.bare, Store.slot_eq_none (Nat.le_refl _)]
    · exact grows.slots id name last
  cases effect with
  | new _ grows => exact slot_iff_of_same (grown grows) nofun
  | nest _ _ grows => exact slot_iff_of_same (grown grows) nofun
  | share => exact slot_iff_of_same rfl nofun
  | get => exact slot_iff_of_same rfl nofun
  | @define handle place x w _ named _ updated =>
    refine slot_iff_of_updated updated fun id name v => ⟨?_, ?_⟩
    · rintro ⟨same⟩
      exact ⟨Option.some.inj (same.symm.trans named), rfl, rfl⟩
    · rintro ⟨rfl, rfl, rfl⟩
      exact .define named
  | @assign handle inner owner t w _ named nearest _ overwritten =>
    refine slot_iff_of_updated overwritten.toUpdated fun id name v => ⟨?_, ?_⟩
    · intro stores
      cases stores with
      | assign same name nearest' =>
        obtain rfl := Option.some.inj (same.symm.trans named)
        subst name
        exact ⟨nearest'.unique sound.aged nearest, rfl, rfl⟩
    · rintro ⟨rfl, rfl, rfl⟩
      exact .assign named rfl nearest
  | unbound named which unbound =>
    refine slot_iff_of_same rfl fun w stores => ?_
    obtain rfl | ⟨u, rfl⟩ := which
    · nomatch stores
    · cases stores with
      | assign same name nearest =>
        obtain rfl := Option.some.inj (same.symm.trans named)
        obtain ⟨old, bound⟩ := nearest.bound
        rw [← name, unbound _ nearest.onChain] at bound
        nomatch bound
  | unknown uses unknown =>
    refine slot_iff_of_same rfl fun w stores => ?_
    cases stores with
    | define same =>
      obtain rfl := Option.some.inj uses
      simp [unknown] at same
    | assign same =>
      obtain rfl := Option.some.inj uses
      simp [unknown] at same

end Slots

theorem sound_empty : empty.Sound where
  aged := .empty
  idle := rfl
  inside := by simp [empty]

namespace Run

variable {ops : List Op} {answers : List Answer} {f : Forest}

theorem sound (run : Run ops answers f) : f.Sound := by
  induction run with
  | start => exact sound_empty
  | @step _ _ f f' op answer _ done ih =>
    obtain ⟨_, _, same, -, kept⟩ := ih.perform op
    obtain ⟨-, rfl⟩ := EStateM.Result.ok.inj (same.symm.trans done)
    exact kept

theorem effect (run : Run ops answers f) {op : Op} {answer : Answer} {f' : Forest}
    (done : perform op f = .ok answer f') : f.Effect op answer f' := by
  obtain ⟨_, _, same, effect, -⟩ := run.sound.perform op
  obtain ⟨rfl, rfl⟩ := EStateM.Result.ok.inj (same.symm.trans done)
  exact effect

theorem unique {answers' : List Answer} {f' : Forest} (run : Run ops answers f)
    (other : Run ops answers' f') : f = f' := by
  induction run generalizing answers' f' with
  | start =>
    generalize none : [] = ops at other
    cases other with
    | start => rfl
    | step => simp at none
  | @step ops answers f mid op answer run done ih =>
    generalize all : ops ++ [op] = whole at other
    cases other with
    | start => simp at all
    | step before last =>
      obtain ⟨rfl, same⟩ := List.append_inj' all rfl
      obtain rfl := List.singleton_inj.1 same
      obtain rfl := ih before
      exact (EStateM.Result.ok.inj (done.symm.trans last)).2

theorem exists_run (ops : List Op) : ∃ answers f, Run ops answers f := by
  induction ops using List.reverseRecOn with
  | nil => exact ⟨[], empty, .start⟩
  | append_singleton ops op ih =>
    obtain ⟨answers, f, run⟩ := ih
    obtain ⟨answer, f', done, -, -⟩ := run.sound.perform op
    exact ⟨answers ++ [answer], f', run.step done⟩

theorem latest_concat_iff (run : Run ops answers f) {op : Op} {id : ScopeId} {name : String}
    {v : Value} :
    Latest id name (ops ++ [op]) v ↔
      f.Stores id name v op ∨ Latest id name ops v ∧ ∀ w, ¬ f.Stores id name w op := by
  constructor
  · intro latest
    generalize all : ops ++ [op] = whole at latest
    cases latest with
    | now before stores =>
      obtain ⟨rfl, same⟩ := List.append_inj' all rfl
      obtain rfl := List.singleton_inj.1 same
      exact .inl (run.unique before ▸ stores)
    | still earlier before none =>
      obtain ⟨rfl, same⟩ := List.append_inj' all rfl
      obtain rfl := List.singleton_inj.1 same
      exact .inr ⟨earlier, run.unique before ▸ none⟩
  · rintro (stores | ⟨earlier, none⟩)
    · exact .now run stores
    · exact .still earlier run none

/-- A scope binds a name to the value that was stored there last. -/
theorem slot_iff_latest (run : Run ops answers f) {id : ScopeId} {name : String} {v : Value} :
    f.cells.store.slot id name = some v ↔ Latest id name ops v := by
  induction run generalizing v with
  | start =>
    refine ⟨fun bound => ?_, fun latest => ?_⟩
    · rw [Store.slot_eq_none (Nat.zero_le id)] at bound
      nomatch bound
    · generalize none : [] = ops at latest
      cases latest <;> simp at none
  | step before done ih =>
    rw [(before.effect done).slot_iff before.sound, ih, before.latest_concat_iff]

end Run

/-- Whatever is done through handles, no operation fails for a hold and no scope stays held. Every scope
is enclosed by older ones only, and binds a name just to the value that was stored there last. Each
operation then has its effect: looking a name up gives the value stored last in the nearest scope that
binds it, and fails with the given token if none on the way outwards does. An assignment overwrites what
that nearest scope binds the name to and nothing else; where there is no such scope it fails, and the
forest stays as it is. -/
theorem handles_keep_laws (ops : List Op) :
    (∃ answers f, Run ops answers f) ∧ ∀ answers f, Run ops answers f →
      f.cells.holds = [] ∧
      (∀ id outer, f.cells.store.enclosing? id = some outer → outer < id) ∧
      (∀ id name v, f.cells.store.slot id name = some v ↔ Latest id name ops v) ∧
      (∀ op, ∃ answer f', perform op f = .ok answer f' ∧ f.Effect op answer f') ∧
      ∀ (handle : Nat) (id : ScopeId), f.handles[handle]? = some id → ∀ t : Token,
        (perform (.get handle t) f = .ok (.ofValue (f.cells.store.get id t)) f ∧
          (∀ v, f.cells.store.get id t = .ok v ↔
            ∃ owner, f.cells.store.Nearest t.lexeme id owner ∧ Latest owner t.lexeme ops v) ∧
          ∀ g, f.cells.store.get id t = .error g ↔ g = .undefined t ∧
            ∀ far, f.cells.store.OnChain id far → f.cells.store.slot far t.lexeme = none) ∧
        ∀ v,
          (∃ owner f', perform (.assign handle t v) f = .ok .done f' ∧
            f.cells.store.assign id t v = .ok f'.cells.store ∧ f'.handles = f.handles ∧
            f.cells.store.Nearest t.lexeme id owner ∧
            f.cells.store.Overwritten owner t.lexeme v f'.cells.store) ∨
          (perform (.assign handle t v) f = .ok (.failed (.undefined t)) f ∧
            f.cells.store.assign id t v = .error (.undefined t) ∧
            ∀ far, f.cells.store.OnChain id far → f.cells.store.slot far t.lexeme = none) := by
  refine ⟨Run.exists_run ops, fun answers f run => ?_⟩
  have sound := run.sound
  refine ⟨sound.idle, sound.aged, fun id name v => run.slot_iff_latest, fun op => ?_,
    fun handle id named t => ⟨⟨sound.get_eq named t, ?_, ?_⟩, ?_⟩⟩
  · obtain ⟨answer, f', done, effect, -⟩ := sound.perform op
    exact ⟨answer, f', done, effect⟩
  · simp only [← run.slot_iff_latest]
    exact fun v => Store.get_eq_ok_iff sound.aged
  · exact fun g => Store.get_eq_error_iff sound.aged
  · intro v
    cases found : f.cells.store.owner? id t.lexeme with
    | none =>
      have unbound := (Store.owner?_eq_none_iff sound.aged).1 found
      exact .inr ⟨sound.assign_unowned named found v,
        (Store.assign_eq_error_iff sound.aged).2 ⟨rfl, unbound⟩, unbound⟩
    | some owner =>
      have nearest := (Store.owner?_eq_some_iff sound.aged).1 found
      exact .inl ⟨owner, _, sound.assign_eq named found v,
        (Store.assign_eq_ok_iff sound.aged).2 ⟨owner, nearest, rfl⟩, rfl, nearest,
        nearest.overwritten v⟩

end Forest

end Scriptlet
