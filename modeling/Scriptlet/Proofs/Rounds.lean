import Scriptlet.Proofs.Results

/-! More rounds never change a run that had enough of them. -/
namespace Scriptlet

/-- One execution does what another does, unless the other runs out of rounds. -/
def Outlasts {α : Type} (y x : Execution α) : Prop :=
  ∀ m, (∃ m', x m = .error (.stop .exhausted) m') ∨ y m = x m

namespace Outlasts

variable {α β : Type}

theorem refl (x : Execution α) : Outlasts x x :=
  fun _ => .inr rfl

theorem bind {x y : Execution α} {f g : α → Execution β} (first : Outlasts y x)
    (next : ∀ a, Outlasts (g a) (f a)) : Outlasts (y >>= g) (x >>= f) := by
  intro m
  obtain ⟨m', out⟩ | same := first m
  · exact .inl ⟨m', bind_of_error out⟩
  · cases result : x m with
    | error exit m' =>
      rw [result] at same
      exact .inr ((bind_of_error same).trans (bind_of_error result).symm)
    | ok a m' =>
      rw [result] at same
      rw [bind_of_ok same, bind_of_ok result]
      exact next a m'

theorem inScope {body body' : ScopeId → Execution Unit} (outer : ScopeId)
    (inside : ∀ inner, Outlasts (body' inner) (body inner)) :
    Outlasts (Execution.inScope outer body') (Execution.inScope outer body) := by
  intro m
  simp only [Execution.inScope]
  obtain ⟨m', out⟩ | same := inside m.store.size { m with store := m.store.add (some outer) }
  · exact .inl ⟨_, by rw [out]⟩
  · exact .inr (by rw [same])

theorem repeatWhile {condition : Execution Value} {body body' : Execution Unit}
    (round : Outlasts body' body) {count count' : Nat} (more : count ≤ count') :
    Outlasts (Execution.repeatWhile condition body' count')
      (Execution.repeatWhile condition body count) := by
  induction count generalizing count' with
  | zero => exact fun m => .inl ⟨m, rfl⟩
  | succ count ih =>
    obtain ⟨count', rfl⟩ := Nat.exists_eq_add_of_le' more
    have fewer : count ≤ count' + count := by omega
    intro m
    rw [← Nat.add_assoc]
    simp only [Execution.repeatWhile]
    cases condition m with
    | error exit m' => exact .inr rfl
    | ok v m' =>
      dsimp only
      split
      · obtain ⟨m'', out⟩ | same := round m'
        · exact .inl ⟨m'', by simp only [out]⟩
        · rw [same]
          cases body m' with
          | error exit m'' => cases exit <;> exact .inr rfl
          | ok _ m'' => exact ih fewer m''
      · exact .inr rfl

end Outlasts

namespace Stmt

variable {rounds rounds' : Nat}

mutual

theorem exec_outlasts (more : rounds ≤ rounds') : (s : Stmt) → (scope : ScopeId) →
    Outlasts (s.exec rounds' scope) (s.exec rounds scope)
  | .expr _, _ => .refl _
  | .print _ _, _ => .refl _
  | .declare _ none, _ => .refl _
  | .declare _ (some _), _ => .refl _
  | .block body, scope => .inScope scope fun inner => execAll_outlasts more body inner
  | .branch condition consequent alternate, scope => by
    refine Outlasts.bind (.refl (Execution.eval scope condition)) fun v => ?_
    split
    · exact .inScope scope fun inner => execAll_outlasts more consequent inner
    · exact .inScope scope fun inner => execAll_outlasts more alternate inner
  | .loop condition body, scope =>
    .repeatWhile (.inScope scope fun inner => exec_outlasts more body inner) more
  | .leave _, _ => .refl _

theorem execAll_outlasts (more : rounds ≤ rounds') : (body : List Stmt) → (scope : ScopeId) →
    Outlasts (execAll rounds' scope body) (execAll rounds scope body)
  | [], _ => .refl _
  | s :: rest, scope =>
    Outlasts.bind (exec_outlasts more s scope) fun _ => execAll_outlasts more rest scope

end

end Stmt

end Scriptlet
