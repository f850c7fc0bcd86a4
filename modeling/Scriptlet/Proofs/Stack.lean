import Scriptlet.Proofs.Semantics

/-! The numbered scopes of a running machine are a stack. Each scope is enclosed by the one just
before it and the current one is the last, so looking a name up along the enclosing scopes is
looking it up in the frames from the top. -/
namespace Scriptlet

namespace Bindings

def frame (b : Bindings) : Reference.Frame :=
  b.foldr (fun entry f => f.insert entry.1 entry.2) ∅

@[simp] theorem lookup_frame (b : Bindings) (name : String) :
    b.frame.lookup name = List.lookup name b := by
  induction b with
  | nil => rfl
  | cons entry rest ih =>
    obtain ⟨n, v⟩ := entry
    have unfolded : frame ((n, v) :: rest) = (frame rest).insert n v := rfl
    rw [unfolded]
    by_cases same : name = n
    · subst same
      simp [Finmap.lookup_insert]
    · have unequal : (name == n) = false := by simpa using same
      rw [Finmap.lookup_insert_of_ne _ same, ih, List.lookup_cons, unequal]

theorem frame_put (name : String) (v : Value) (b : Bindings) :
    (b.put name v).frame = b.frame.insert name v := by
  refine Finmap.ext_lookup fun other => ?_
  by_cases same : other = name
  · subst same
    simp [Finmap.lookup_insert]
  · simp [Finmap.lookup_insert_of_ne _ same, lookup_put_of_ne same]

end Bindings

namespace Store

open Reference

def frameAt (s : Store) (id : Nat) : Frame :=
  match s.scopes[id]? with
  | some scope => scope.bindings.frame
  | none => ∅

/-- The first scopes of a store, the last of them on top. -/
def stack (s : Store) : (count : Nat) → Stack
  | 0 => []
  | count + 1 => s.frameAt count :: s.stack count

def outward : Nat → Option Nat
  | 0 => none
  | id + 1 => some id

/-- Every scope is enclosed by the one before it, and the given one is the last. -/
structure Nested (s : Store) (current : Nat) : Prop where
  size_eq : s.scopes.size = current + 1
  enclosing : ∀ id scope, s.scopes[id]? = some scope → scope.enclosing = outward id

theorem getElem?_define (s : Store) (id other : Nat) (name : String) (v : Value) :
    (s.define id name v).scopes[other]? =
      if id = other then s.scopes[other]?.map (·.put name v) else s.scopes[other]? := by
  simp [define, Array.getElem?_modify]

theorem getElem?_truncate (s : Store) (count id : Nat) :
    (s.truncate count).scopes[id]? = if id < count then s.scopes[id]? else none := by
  simp only [truncate, Array.shrink_eq_take, Array.take_eq_extract, Array.getElem?_extract,
    Nat.sub_zero, Nat.zero_add]
  by_cases below : id < count <;> by_cases inside : id < s.scopes.size <;>
    simp [below, inside]

theorem size_truncate {s : Store} {count : Nat} (enough : count ≤ s.size) :
    (s.truncate count).size = count := by
  rw [truncate, size, Array.size_shrink]
  exact Nat.min_eq_left enough

theorem frameAt_define_self {s : Store} {id : Nat} (bound : id < s.size) (name : String)
    (v : Value) : (s.define id name v).frameAt id = (s.frameAt id).insert name v := by
  have present : s.scopes[id]? = some s.scopes[id] := Array.getElem?_eq_getElem bound
  simp only [frameAt, getElem?_define, present, if_true, Option.map_some]
  exact Bindings.frame_put name v _

theorem frameAt_define_of_ne {s : Store} {id other : Nat} (different : id ≠ other)
    (name : String) (v : Value) : (s.define id name v).frameAt other = s.frameAt other := by
  simp [frameAt, getElem?_define, different]

theorem stack_define_of_le {s : Store} {id count : Nat} (below : count ≤ id) (name : String)
    (v : Value) : (s.define id name v).stack count = s.stack count := by
  induction count with
  | zero => rfl
  | succ count ih =>
    rw [stack, stack, frameAt_define_of_ne (by omega), ih (by omega)]

theorem get?_eq_bind (s : Store) (id : Nat) (name : String) :
    s.get? id name = (s.owner? id name).bind fun owner => (s.frameAt owner).lookup name := by
  rw [get?]
  cases s.owner? id name with
  | none => rfl
  | some owner =>
    cases present : s.scopes[owner]? with
    | none => simp [frameAt, present]
    | some scope => simp [frameAt, present, Scope.get?]

namespace Nested

variable {s : Store} {current : Nat}

theorem define (nested : Nested s current) (id : Nat) (name : String) (v : Value) :
    Nested (s.define id name v) current where
  size_eq := by
    have kept := size_define s id name v
    exact kept.trans nested.size_eq
  enclosing other scope found := by
    rw [getElem?_define] at found
    split at found
    · obtain ⟨before, present, rfl⟩ := Option.map_eq_some_iff.1 found
      exact nested.enclosing other before present
    · exact nested.enclosing other scope found

theorem add (nested : Nested s current) : Nested (s.add (some current)) (current + 1) where
  size_eq := by
    have grown := size_add s (some current)
    exact grown.trans (congrArg (· + 1) nested.size_eq)
  enclosing id scope found := by
    rw [Store.add, Array.getElem?_push] at found
    split at found
    · rename_i last
      obtain rfl := Option.some.inj found
      rw [last, nested.size_eq]
      rfl
    · exact nested.enclosing id scope found

theorem truncate (nested : Nested s (current + 1)) :
    Nested (s.truncate (current + 1)) current where
  size_eq := size_truncate (Nat.le_of_lt (Nat.lt_of_succ_le (Nat.le_of_eq nested.size_eq.symm)))
  enclosing id scope found := by
    rw [getElem?_truncate] at found
    split at found
    · exact nested.enclosing id scope found
    · simp at found

theorem owner?_eq (nested : Nested s current) (name : String) {id : Nat} (bound : id ≤ current) :
    s.owner? id name =
      if name ∈ s.frameAt id then some id else (outward id).bind (s.owner? · name) := by
  have inside : id < s.scopes.size := by
    have size := nested.size_eq
    omega
  have present : s.scopes[id]? = some s.scopes[id] := Array.getElem?_eq_getElem inside
  have member : name ∈ s.frameAt id ↔ s.scopes[id].binds name := by
    rw [← Finmap.lookup_isSome]
    simp [frameAt, present, Scope.binds, Scope.get?]
  rw [owner?, ownerWithin, present]
  by_cases binds : s.scopes[id].binds name
  · simp [binds, member]
  · simp only [binds, member, Bool.false_eq_true, if_false, nested.enclosing id _ present]
    cases id with
    | zero => rfl
    | succ id => rfl

theorem owner?_le (nested : Nested s current) {name : String} {id owner : Nat}
    (bound : id ≤ current)
    (found : s.owner? id name = some owner) : owner ≤ id := by
  induction id with
  | zero =>
    rw [nested.owner?_eq name bound] at found
    split at found
    · exact Nat.le_of_eq (Option.some.inj found).symm
    · simp [outward] at found
  | succ id ih =>
    rw [nested.owner?_eq name bound] at found
    split at found
    · exact Nat.le_of_eq (Option.some.inj found).symm
    · have below : id ≤ current := by omega
      have older := ih below found
      omega

theorem get?_eq (nested : Nested s current) (name : String) {id : Nat} (bound : id ≤ current) :
    s.get? id name = (s.stack (id + 1)).lookup name := by
  induction id with
  | zero =>
    rw [get?_eq_bind, nested.owner?_eq name bound, stack, Stack.lookup]
    by_cases member : name ∈ s.frameAt 0
    · obtain ⟨v, found⟩ := Finmap.mem_iff.1 member
      simp [member, found]
    · simp [member, Finmap.lookup_eq_none.2 member, outward, stack, Stack.lookup]
  | succ id ih =>
    have further := ih (by omega)
    rw [get?_eq_bind] at further
    rw [get?_eq_bind, nested.owner?_eq name bound, stack, Stack.lookup, ← further]
    by_cases member : name ∈ s.frameAt (id + 1)
    · obtain ⟨v, found⟩ := Finmap.mem_iff.1 member
      simp [member, found]
    · simp [member, Finmap.lookup_eq_none.2 member, outward]

theorem stack_define (nested : Nested s current) (name : String) (v : Value) {id : Nat}
    (bound : id ≤ current) :
    (s.define id name v).stack (id + 1) = (s.frameAt id).insert name v :: s.stack id := by
  have inside : id < s.scopes.size := by
    have size := nested.size_eq
    omega
  rw [stack, frameAt_define_self inside, stack_define_of_le (Nat.le_refl id)]

/-- An assignment to the owner of a name changes the first frame that binds it. -/
theorem assign_eq (nested : Nested s current) (name : String) (v : Value) {id : Nat}
    (bound : id ≤ current) :
    (s.stack (id + 1)).assign name v =
      (s.owner? id name).map fun owner => (s.define owner name v).stack (id + 1) := by
  induction id with
  | zero =>
    rw [nested.owner?_eq name bound, stack, Stack.assign]
    by_cases member : name ∈ s.frameAt 0
    · simp [member, nested.stack_define name v bound]
    · simp [member, outward, stack, Stack.assign]
  | succ id ih =>
    have below : id ≤ current := by omega
    rw [nested.owner?_eq name bound, stack, Stack.assign, ih below]
    by_cases member : name ∈ s.frameAt (id + 1)
    · simp [member, nested.stack_define name v bound]
    · simp only [member, if_false, outward, Option.bind_some, Option.map_map]
      cases found : s.owner? id name with
      | none => rfl
      | some owner =>
        have older := nested.owner?_le below found
        have different : owner ≠ id + 1 := Nat.ne_of_lt (Nat.lt_succ_of_le older)
        simp [stack, frameAt_define_of_ne different]

theorem stack_add (nested : Nested s current) :
    (s.add (some current)).stack (current + 2) = ∅ :: s.stack (current + 1) := by
  have size := nested.size_eq
  have older {count : Nat} (bound : count ≤ current + 1) :
      (s.add (some current)).stack count = s.stack count := by
    induction count with
    | zero => rfl
    | succ count ih =>
      have other : count ≠ s.scopes.size := by omega
      rw [stack, stack, ih (by omega), frameAt, frameAt, Store.add, Array.getElem?_push,
        if_neg other]
  have fresh : (s.add (some current)).frameAt (current + 1) = ∅ := by
    simp [frameAt, Store.add, ← size, Bindings.frame]
  rw [stack, older (Nat.le_refl _), fresh]

theorem stack_truncate {count : Nat} : (s.truncate count).stack count = s.stack count := by
  have kept {k : Nat} (bound : k ≤ count) : (s.truncate count).stack k = s.stack k := by
    induction k with
    | zero => rfl
    | succ k ih =>
      have below : k < count := bound
      rw [stack, stack, ih (by omega), frameAt, frameAt, getElem?_truncate, if_pos below]
  exact kept (Nat.le_refl _)

end Nested

end Store
end Scriptlet
