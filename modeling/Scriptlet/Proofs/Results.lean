import Scriptlet.Session

/-! What computations give from a state, one step at a time. -/
namespace Scriptlet

section Monad

variable {ε σ α β : Type} {x : EStateM ε σ α} {f : α → EStateM ε σ β} {s s' : σ}

theorem bind_of_ok {a : α} (ends : x s = .ok a s') : (x >>= f) s = f a s' := by
  simp only [bind, EStateM.bind, ends]

theorem bind_of_error {e : ε} (ends : x s = .error e s') : (x >>= f) s = .error e s' := by
  simp only [bind, EStateM.bind, ends]

theorem bind_eq_ok_iff {b : β} :
    (x >>= f) s = .ok b s' ↔ ∃ a mid, x s = .ok a mid ∧ f a mid = .ok b s' := by
  cases ends : x s with
  | ok a mid =>
    rw [bind_of_ok ends]
    constructor
    · exact fun further => ⟨a, mid, rfl, further⟩
    · rintro ⟨_, _, ⟨⟩, further⟩
      exact further
  | error e mid => simp [bind_of_error ends]

theorem map_of_ok {g : α → β} {a : α} (ends : x s = .ok a s') : (g <$> x) s = .ok (g a) s' := by
  simp only [Functor.map, EStateM.map, ends]

theorem map_of_error {g : α → β} {e : ε} (ends : x s = .error e s') :
    (g <$> x) s = .error e s' := by
  simp only [Functor.map, EStateM.map, ends]

end Monad

namespace Evaluation

theorem get_apply (scope : ScopeId) (name : Token) (s : Store) :
    get scope name s =
      match s.get? scope name.lexeme with
      | some v => .ok v s
      | none => .error (.failure (.undefined name)) s := by
  have shown : (MonadState.get : Evaluation Store) s = .ok s s := rfl
  rw [get, bind_of_ok shown, Store.get]
  cases s.get? scope name.lexeme <;> rfl

theorem assign_apply (scope : ScopeId) (name : Token) (v : Value) (s : Store) :
    assign scope name v s =
      match s.owner? scope name.lexeme with
      | some owner => .ok () (s.define owner name.lexeme v)
      | none => .error (.failure (.undefined name)) s := by
  have shown : (MonadState.get : Evaluation Store) s = .ok s s := rfl
  rw [assign, bind_of_ok shown, Store.assign]
  cases s.owner? scope name.lexeme <;> rfl

end Evaluation

end Scriptlet
