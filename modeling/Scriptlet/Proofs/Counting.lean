import Scriptlet.Proofs.Insets
import Scriptlet.Proofs.Nesting

/-! What the tree of a counting loop does. It runs the body and the increment two scopes further in than
a loop of its own kind would, the increment in the same scope as the body; and to leave the loop goes
through the block around both. Neither makes a difference, as the body is no declaration. -/
namespace Scriptlet

namespace Execution

/-- Tests, runs the body and counts on, as long as the condition holds and at most `rounds` times. To
leave the loop ends it without counting on. -/
def count (condition : Execution Value) (body increment : Execution Unit) :
    (rounds : Nat) → Execution Unit
  | 0 => throw (.stop .exhausted)
  | rounds + 1 => fun m =>
    match condition m with
    | .error exit after => .error exit after
    | .ok v after =>
      if v.truthy then
        match body after with
        | .ok _ again =>
          match increment again with
          | .ok _ next => count condition body increment rounds next
          | .error exit last => .error exit last
        | .error .left last => .ok () last
        | .error exit last => .error exit last
      else .ok () after

def evalSome (scope : ScopeId) : Option Expr → Execution Unit
  | some e => discard (eval scope e)
  | none => return ()

end Execution

namespace Stmt

/-- A counting loop without its tree: a scope for the loop, in which the initial statement runs, the
condition is tested and the increment counts on, and a scope inside it for each round. -/
def countDirectly (rounds : Nat) (scope : ScopeId) (initial : Option Stmt)
    (condition increment : Option Expr) (body : Stmt) : Execution Unit :=
  Execution.inScope scope fun loop => do
    if let some s := initial then
      s.exec rounds loop
    Execution.count (Execution.eval loop (condition.getD (.literal (.bool true))))
      (Execution.inScope loop fun inner => body.exec rounds inner)
      (Execution.evalSome loop increment) rounds

variable {scope : Nat} {m : Machine} {body : Stmt} (rounds : Nat)

theorem round_exec (e : Expr) (silent : body.declared = []) (ready : m.Ready scope) :
    Execution.inScope scope (fun inner => (block [body, .expr e]).exec rounds inner) m =
      (Execution.inScope scope (fun inner => body.exec rounds inner) >>= fun _ =>
        Execution.evalSome scope (some e)) m := by
  have both : ∀ s ∈ [body, .expr e], s.declared = [] := by
    rintro s (_ | ⟨_, _ | ⟨_, ⟨⟩⟩⟩)
    · exact silent
    · rfl
  have alone := inScope_exec rounds silent ready
  -- without their scopes, both are the body and then the increment, where the loop is
  calc Execution.inScope scope (fun inner => (block [body, .expr e]).exec rounds inner) m
    _ = (block [body, .expr e]).exec rounds scope m := inScope_exec rounds rfl ready
    _ = execAll rounds scope [body, .expr e] m := inScope_execAll rounds both ready
    _ = (body.exec rounds scope >>= fun _ => Execution.evalSome scope (some e)) m := by
      simp only [execAll, exec, Execution.evalSome, bind_pure_unit]
    _ = _ := by simp only [Bind.bind, EStateM.bind, alone]

end Stmt

namespace Execution

variable {condition : Execution Value} {round body increment : Execution Unit} {I : Machine → Prop}

theorem repeatWhile_eq_count (tests : Relates (fun m m' => I m → I m') condition)
    (runs : Relates (fun m m' => I m → I m') body)
    (counts : Relates (fun m m' => I m → I m') increment)
    (stays : ∀ m m', increment m ≠ .error .left m')
    (same : ∀ m, I m → round m = (body >>= fun _ => increment) m) (rounds : Nat) {m : Machine}
    (holds : I m) : repeatWhile condition round rounds m = count condition body increment rounds m := by
  induction rounds generalizing m with
  | zero => rfl
  | succ rounds ih =>
    have tested := tests m holds
    simp only [repeatWhile, count]
    cases result : condition m with
    | error exit after => rfl
    | ok v after =>
      rw [result] at tested
      have ran := runs after tested
      dsimp only
      rw [same after tested]
      cases result : body after with
      | error exit last =>
        rw [bind_of_error result]
        cases exit <;> rfl
      | ok _ again =>
        rw [result] at ran
        have counted := counts again ran
        rw [bind_of_ok result]
        dsimp only
        cases result : increment again with
        | ok _ next =>
          rw [result] at counted
          have further : repeatWhile condition round rounds next =
              count condition body increment rounds next := ih counted
          simp only [further]
        | error exit last =>
          cases exit with
          | stop stop => rfl
          | left => exact absurd result (stays again last)

theorem evalSome_ne_left (scope : ScopeId) (e : Option Expr) (m m' : Machine) :
    evalSome scope e m ≠ .error .left m' := by
  intro left
  cases e with
  | none => cases left
  | some e =>
    rw [evalSome] at left
    cases result : e.eval scope m.store with
    | ok v store =>
      have ends : eval scope e m = .ok v { m with store } := by rw [eval, result]
      cases (map_of_ok ends).symm.trans left
    | error stop store =>
      have ends : eval scope e m = .error (.stop stop) { m with store } := by rw [eval, result]
      cases (map_of_error ends).symm.trans left

theorem evalSome_framed (scope : ScopeId) (e : Option Expr) :
    ∃ targets, Relates (Machine.Framed targets scope) (evalSome scope e) := by
  cases e with
  | none => exact ⟨[], .pure .refl ()⟩
  | some e => exact ⟨e.targets, (eval_framed (List.Subset.refl _)).map _⟩

theorem inScope_congr {x y : ScopeId → Execution Unit} {scope : ScopeId} {m : Machine}
    (same : x m.store.size { m with store := m.store.add (some scope) } =
      y m.store.size { m with store := m.store.add (some scope) }) :
    inScope scope x m = inScope scope y m := by
  simp only [inScope, same]

end Execution

namespace Stmt

variable {scope : Nat} {m : Machine} {body : Stmt} (rounds : Nat)

theorem loop_exec (condition : Expr) (increment : Option Expr) (silent : body.declared = [])
    (ready : m.Ready scope) :
    (loop condition (match increment with
        | some e => block [body, .expr e]
        | none => body)).exec rounds scope m =
      Execution.count (Execution.eval scope condition)
        (Execution.inScope scope fun inner => body.exec rounds inner)
        (Execution.evalSome scope increment) rounds m := by
  obtain ⟨targets, counts⟩ := Execution.evalSome_framed scope increment
  have runs : Relates (Machine.Framed body.targets scope)
      (Execution.inScope scope fun inner => body.exec rounds inner) :=
    Execution.inScope_framed fun inner m inside =>
      ⟨_, body.exec_framed rounds (List.Subset.refl _) inner m inside⟩
  rw [exec]
  refine Execution.repeatWhile_eq_count (I := Machine.Ready scope)
    (fun m => (Execution.eval_framed (List.Subset.refl _) m).ready) (fun m => (runs m).ready)
    (fun m => (counts m).ready) (Execution.evalSome_ne_left scope increment) (fun m ready => ?_)
    rounds ready
  cases increment with
  | some e => exact round_exec rounds e silent ready
  | none => simp only [Execution.evalSome, bind_pure_unit]

theorem counting_exec (initial : Option Stmt) (condition increment : Option Expr)
    (silent : body.declared = []) (ready : m.Ready scope) :
    (counting initial condition increment body).exec rounds scope m =
      countDirectly rounds scope initial condition increment body m := by
  have opened := ready.opened
  refine Execution.inScope_congr ?_
  generalize m.store.size = inner, { m with store := m.store.add (some scope) } = m at opened
  cases initial with
  | none =>
    have runs := loop_exec rounds (condition.getD (.literal (.bool true))) increment silent opened
    simp only [Option.toList, List.nil_append, execAll, bind_pure_unit]
    exact runs
  | some s =>
    have first := exec_ready rounds s opened
    simp only [Option.toList, List.cons_append, List.nil_append, execAll, bind_pure_unit]
    cases result : s.exec rounds inner m with
    | error exit after => rw [bind_of_error result, bind_of_error result]
    | ok _ after =>
      rw [result] at first
      rw [bind_of_ok result, bind_of_ok result]
      exact loop_exec rounds _ increment silent first

end Stmt

namespace Parser

theorem Keeps.after {α β : Type} {p : Parser α} {f : α → Parser β} {Q : β → Prop}
    (last : ∀ a, Keeps (fun _ => True) Q (f a)) : Keeps (fun _ => True) Q (p >>= f) := by
  have first : Keeps (fun _ => True) (fun _ => True) p :=
    ⟨fun _ _ _ => trivial, fun _ _ _ => trivial⟩
  exact first.bind fun a _ => last a

/-- What is read where a statement is due declares nothing. -/
theorem statement_keeps_silent (depth : Nat) (setting : Setting) :
    Keeps (fun _ => True) (fun s => s.declared = []) (statement depth setting) := by
  cases depth with
  | zero => exact .fail trivial
  | succ depth =>
    refine .after fun keyword => ?_
    match keyword with
    | none => exact .after fun _ => .after fun _ => .pure rfl
    | some keyword =>
      dsimp only
      split
      case h_1 => exact .after fun _ => .after fun _ => .pure rfl
      case h_2 => exact .after fun _ => .after fun _ => .pure rfl
      case h_3 =>
        refine .after fun _ => .after fun _ => .after fun _ => .after fun other => ?_
        cases other <;> exact .after fun _ => .after fun _ => .pure rfl
      case h_4 => exact .after fun _ => .after fun _ => .pure rfl
      case h_5 =>
        exact .after fun _ => .after fun _ => .after fun _ => .after fun _ => .after fun _ =>
          .after fun _ => .after fun _ => .pure rfl
      case h_6 =>
        rw [breakStatement]
        split
        · exact .after fun _ => .after fun _ => .pure rfl
        · exact .after fun _ => .pure rfl

theorem forLoop_keeps_counting (depth : Nat) (setting : Setting) :
    Keeps (fun _ => True) (fun s => ∃ initial condition increment body,
      body.declared = [] ∧ s = Stmt.counting initial condition increment body)
      (forLoop (Rules.within depth) (statement depth) setting) :=
  .after fun _ => .after fun initial => .after fun condition => .after fun _ =>
    .after fun increment => .after fun _ =>
      (statement_keeps_silent depth setting.looped).bind fun body silent =>
        .pure ⟨initial, condition, increment, body, silent, rfl⟩

end Parser

/-- The tree of a counting loop does what the loop does: it ends in the same way after the same rounds,
with the same output and the same bindings. Every such loop that is read has a tree of this form, and
every machine is ready for it. -/
theorem counting_means_loop :
    (∀ (rounds : Nat) (initial : Option Stmt) (condition increment : Option Expr) (body : Stmt)
      (scope : Nat) (m : Machine), body.declared = [] → m.Ready scope →
      (Stmt.counting initial condition increment body).exec rounds scope m =
        Stmt.countDirectly rounds scope initial condition increment body m) ∧
    (∀ depth setting ts, ∀ s ∈ (Parser.forLoop (Rules.within depth) (Parser.statement depth)
      setting ts).value, ∃ initial condition increment body,
        body.declared = [] ∧ s = Stmt.counting initial condition increment body) ∧
    (∀ sink, (Machine.start sink).Ready Machine.globalScope) ∧
    ∀ (rounds : Nat) (s : Stmt) (scope : Nat) (m : Machine), m.Ready scope →
      (final (s.exec rounds scope m)).Ready scope ∧
      Machine.Ready m.store.size { m with store := m.store.add (some scope) } := by
  refine ⟨fun rounds initial condition increment body scope m silent ready => ?_,
    fun depth setting => (Parser.forLoop_keeps_counting depth setting).values, Machine.ready_start,
    fun rounds s scope m ready => ⟨s.exec_ready rounds ready, ready.opened⟩⟩
  exact Stmt.counting_exec rounds initial condition increment silent ready

theorem left_loop_means_loop :
    let word (kind : Kind) (lexeme : String) : Token := ⟨kind, lexeme, none, .start⟩
    let initial : Option Stmt :=
      some (.declare (word .name "a") (some (.literal (.string "once"))))
    let increment : Option Expr := some (.var (word .name "b"))
    let body : Stmt :=
      .block [.print (word .printWord "print") (.var (word .name "a")), .leave (word .breakWord "break")]
    let m := Machine.start .unlimited
    body.declared = [] ∧ m.Ready Machine.globalScope ∧
      (Stmt.counting initial none increment body).exec 1 Machine.globalScope m =
        Stmt.countDirectly 1 Machine.globalScope initial none increment body m ∧
      Stmt.countDirectly 1 Machine.globalScope initial none increment body m =
        .ok () { m with sink := m.sink.write (Reference.line (.string "once")) } :=
  ⟨rfl, Machine.ready_start _,
    counting_means_loop.1 1 _ none _ _ _ _ rfl (Machine.ready_start _), rfl⟩

end Scriptlet
