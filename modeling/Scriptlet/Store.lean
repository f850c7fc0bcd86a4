import Scriptlet.Failure

/-! Variables. A store holds scopes under numbers in the order of their creation. A scope binds names and
may be enclosed by an older one; a name means the binding in the nearest scope that has one. -/
namespace Scriptlet

/-- Bindings of names, at most one for each. -/
abbrev Bindings := List (String × Value)

namespace Bindings

/-- Binds a name, in place of its old binding if it has one. -/
def put (name : String) (v : Value) : Bindings → Bindings
  | [] => [(name, v)]
  | (n, w) :: rest => if n = name then (n, v) :: rest else (n, w) :: put name v rest

@[simp] theorem lookup_put_self (name : String) (v : Value) (b : Bindings) :
    (b.put name v).lookup name = some v := by
  induction b with
  | nil => simp [put]
  | cons entry rest ih =>
    obtain ⟨n, w⟩ := entry
    by_cases same : n = name
    · simp [put, same]
    · have unequal : (name == n) = false := by simpa using Ne.symm same
      simp [put, same, List.lookup_cons, unequal, ih]

theorem lookup_put_of_ne {name other : String} (different : other ≠ name) (v : Value)
    (b : Bindings) : (b.put name v).lookup other = b.lookup other := by
  have unequal : (other == name) = false := by simpa using different
  induction b with
  | nil => simp [put, List.lookup_cons, unequal]
  | cons entry rest ih =>
    obtain ⟨n, w⟩ := entry
    by_cases same : n = name
    · simp [put, same, List.lookup_cons, unequal]
    · simp [put, same, List.lookup_cons, ih]

end Bindings

abbrev ScopeId := Nat

structure Scope where
  bindings : Bindings
  enclosing : Option ScopeId
deriving DecidableEq

namespace Scope

def get? (s : Scope) (name : String) : Option Value :=
  s.bindings.lookup name

def put (name : String) (v : Value) (s : Scope) : Scope :=
  { s with bindings := s.bindings.put name v }

def binds (s : Scope) (name : String) : Bool :=
  (s.get? name).isSome

end Scope

structure Store where
  scopes : Array Scope
deriving DecidableEq

namespace Store

def empty : Store := ⟨#[]⟩

/-- The number that the next scope gets. -/
def size (s : Store) : ScopeId :=
  s.scopes.size

/-- A new scope without bindings. -/
def add (s : Store) (enclosing : Option ScopeId) : Store :=
  ⟨s.scopes.push ⟨[], enclosing⟩⟩

@[simp] theorem size_add (s : Store) (enclosing : Option ScopeId) :
    (s.add enclosing).size = s.size + 1 := by
  simp [add, size]

/-- Forgets the scopes from number `count` on. -/
def truncate (s : Store) (count : Nat) : Store :=
  ⟨s.scopes.shrink count⟩

/-- The nearest scope that binds a name, among `count` scopes outwards from `id`. -/
def ownerWithin (s : Store) (name : String) : (count : Nat) → ScopeId → Option ScopeId
  | 0, _ => none
  | count + 1, id =>
    match s.scopes[id]? with
    | none => none
    | some scope =>
      if scope.binds name then some id
      else
        match scope.enclosing with
        | some outer => s.ownerWithin name count outer
        | none => none

/-- The nearest scope that binds a name, from `id` outwards. Enclosing scopes are older, so at most
`id` others come after it. -/
def owner? (s : Store) (id : ScopeId) (name : String) : Option ScopeId :=
  s.ownerWithin name (id + 1) id

def define (s : Store) (id : ScopeId) (name : String) (v : Value) : Store :=
  ⟨s.scopes.modify id (·.put name v)⟩

@[simp] theorem size_define (s : Store) (id : ScopeId) (name : String) (v : Value) :
    (s.define id name v).size = s.size := by
  simp [define, size]

def get? (s : Store) (id : ScopeId) (name : String) : Option Value := do
  let owner ← s.owner? id name
  let scope ← s.scopes[owner]?
  scope.get? name

def get (s : Store) (id : ScopeId) (name : Token) : Except Failure Value :=
  match s.get? id name.lexeme with
  | some v => .ok v
  | none => .error (.undefined name)

/-- Overwrites the nearest binding of a name, and never adds one. -/
def assign (s : Store) (id : ScopeId) (name : Token) (v : Value) : Except Failure Store :=
  match s.owner? id name.lexeme with
  | some owner => .ok (s.define owner name.lexeme v)
  | none => .error (.undefined name)

end Store
end Scriptlet
