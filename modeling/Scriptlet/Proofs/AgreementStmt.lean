import Scriptlet.Proofs.AgreementExpr

/-! Runs of statements follow the rules. A run in which no loop uses up its rounds is a derivation,
and a derivation is what the machine does as soon as its loops are given enough rounds. The rounds
of one loop and those of the loops inside it are counted apart, since a derivation gives one more
round to the loop that goes on and not to its body. -/
namespace Scriptlet

open Reference

def ended (ending : Ending) (m : Machine) : EStateM.Result Exit Machine Unit :=
  match ending with
  | .done => .ok () m
  | .broke => .error .left m
  | .failed f => .error (.stop (.failure f)) m

namespace Machine

structure Models (m : Machine) (scope : Nat) (w : World) : Prop where
  store : m.store.Models scope w.stack
  sink : m.sink = w.sink

def opened (m : Machine) (scope : Nat) : Machine :=
  { m with store := m.store.add (some scope) }

def closed (m : Machine) (scope : Nat) : Machine :=
  { m with store := m.store.truncate (scope + 1) }

variable {m : Machine} {scope : Nat} {σ : Stack} {frame : Frame} {sink : Sink}

theorem Models.opened (models : m.Models scope ⟨σ, sink⟩) :
    (m.opened scope).Models (scope + 1) ⟨∅ :: σ, sink⟩ := by
  refine ⟨⟨models.store.nested.add, ?_⟩, models.sink⟩
  have stack := models.store.nested.stack_add
  rw [models.store.stack_eq] at stack
  exact stack

theorem Models.closed (models : m.Models (scope + 1) ⟨frame :: σ, sink⟩) :
    (m.closed scope).Models scope ⟨σ, sink⟩ := by
  refine ⟨⟨models.store.nested.truncate, ?_⟩, models.sink⟩
  have stack := models.store.stack_eq
  rw [Store.stack] at stack
  exact Store.Nested.stack_truncate.trans (List.cons.inj stack).2

theorem Models.exists_frame {w : World} (models : m.Models scope w) :
    ∃ frame σ, w = ⟨frame :: σ, w.sink⟩ := by
  obtain ⟨σ, sink⟩ := w
  have stack : m.store.stack (scope + 1) = σ := models.store.stack_eq
  rw [Store.stack] at stack
  exact ⟨_, _, by rw [stack]⟩

theorem Models.with_store {s : Store} {w : World} (models : m.Models scope w)
    (stored : s.Models scope σ) : ({ m with store := s } : Machine).Models scope ⟨σ, w.sink⟩ :=
  ⟨stored, models.sink⟩

end Machine

namespace Execution

variable {m : Machine} {scope : Nat} {σ σ' : Stack} {sink : Sink}

theorem eval_of_derived {e : Expr} {r : Result} (derived : Eval σ e r σ') (proper : e.proper)
    (models : m.Models scope ⟨σ, sink⟩) :
    ∃ m', m'.Models scope ⟨σ', sink⟩ ∧
      eval scope e m =
        match r with
        | .ok v => .ok v m'
        | .error f => .error (.stop (.failure f)) m' := by
  obtain ⟨s', result, stored⟩ := Expr.eval_of_derived derived proper models.store
  refine ⟨{ m with store := s' }, models.with_store stored, ?_⟩
  rw [eval, result]
  cases r <;> rfl

theorem define_of_models {frame : Frame} (name : Token) (v : Value)
    (models : m.Models scope ⟨frame :: σ, sink⟩) :
    ∃ m', m'.Models scope ⟨frame.insert name.lexeme v :: σ, sink⟩ ∧
      define scope name v m = .ok () m' := by
  refine ⟨{ m with store := m.store.define scope name.lexeme v },
    ⟨⟨models.store.nested.define scope name.lexeme v, ?_⟩, models.sink⟩, rfl⟩
  have stack := models.store.stack_eq
  rw [Store.stack] at stack
  obtain ⟨top, below⟩ := List.cons.inj stack
  rw [models.store.nested.stack_define name.lexeme v (Nat.le_refl scope), top, below]

theorem line_eq (v : Value) : line v = (v.text ++ "\n").toUTF8 := by
  have same : text v = v.text := by
    match v with
    | .nil => rfl
    | .bool true => rfl
    | .bool false => rfl
    | .number _ => rfl
    | .string _ => rfl
  rw [line, same]

theorem print_apply (keyword : Token) (v : Value) (m : Machine) :
    print keyword v m =
      ended (if m.sink.fits (line v) then .done else .failed ⟨keyword, .output "sink full"⟩)
        { m with sink := m.sink.write (line v) } := by
  have unfolded : print keyword v m =
      (if !m.sink.fits (line v) then throw (.stop (.failure ⟨keyword, .output "sink full"⟩))
        else pure () : Execution Unit) { m with sink := m.sink.write (line v) } := by
    rw [line_eq]
    rfl
  rw [unfolded]
  cases m.sink.fits (line v) <;> rfl

theorem print_of_models (keyword : Token) (v : Value) (models : m.Models scope ⟨σ, sink⟩) :
    ∃ m', m'.Models scope ⟨σ, sink.write (line v)⟩ ∧
      print keyword v m =
        ended (if sink.fits (line v) then .done
          else .failed ⟨keyword, .output "sink full"⟩) m' := by
  have same : m.sink = sink := models.sink
  refine ⟨{ m with sink := m.sink.write (line v) }, ⟨models.store, by rw [same]⟩, ?_⟩
  rw [print_apply, same]

theorem inScope_apply {w : World} (models : m.Models scope w) (body : ScopeId → Execution Unit) :
    inScope scope body m =
      match body (scope + 1) (m.opened scope) with
      | .ok a after => .ok a (after.closed scope)
      | .error exit after => .error exit (after.closed scope) := by
  have size : m.store.size = scope + 1 := models.store.nested.size_eq
  unfold inScope
  rw [size]
  rfl

theorem inScope_of_ended (body : ScopeId → Execution Unit) {ending : Ending} {after : Machine}
    {w : World} (models : m.Models scope w)
    (result : body (scope + 1) (m.opened scope) = ended ending after) :
    inScope scope body m = ended ending (after.closed scope) := by
  rw [inScope_apply models, result]
  cases ending <;> rfl

theorem derived_eval {e : Expr} (proper : e.proper) (models : m.Models scope ⟨σ, sink⟩) :
    (∃ v m' σ', eval scope e m = .ok v m' ∧ m'.Models scope ⟨σ', sink⟩ ∧ Eval σ e (.ok v) σ') ∨
      ∃ f m' σ', eval scope e m = .error (.stop (.failure f)) m' ∧ m'.Models scope ⟨σ', sink⟩ ∧
        Eval σ e (.error f) σ' := by
  obtain ⟨r, σ', derived⟩ := eval_total proper σ
  obtain ⟨m', models', result⟩ := eval_of_derived derived proper models
  cases r with
  | ok v => exact .inl ⟨v, m', σ', result, models', derived⟩
  | error f => exact .inr ⟨f, m', σ', result, models', derived⟩

end Execution

/-- What a run of the machine has to be: out of rounds, or an ending that the rules derive. -/
def Follows (result : EStateM.Result Exit Machine Unit) (scope : Nat) (w : World)
    (code : Code) : Prop :=
  (∃ m', result = .error (.stop .exhausted) m') ∨
    ∃ ending m' w', result = ended ending m' ∧ m'.Models scope w' ∧ Runs w code ending w'

namespace Execution

variable {m : Machine} {scope : Nat} {σ σ' : Stack} {sink : Sink}

theorem inScope_follows (body : ScopeId → Execution Unit) {code : Code}
    (models : m.Models scope ⟨σ, sink⟩)
    (follows : Follows (body (scope + 1) (m.opened scope)) (scope + 1) ⟨∅ :: σ, sink⟩ code) :
    (∃ m', inScope scope body m = .error (.stop .exhausted) m') ∨
      ∃ ending m' frame σ' sink', inScope scope body m = ended ending m' ∧
        m'.Models scope ⟨σ', sink'⟩ ∧
        Runs ⟨∅ :: σ, sink⟩ code ending ⟨frame :: σ', sink'⟩ := by
  obtain ⟨after, result⟩ | ⟨ending, after, w', result, models', runs⟩ := follows
  · refine .inl ⟨after.closed scope, ?_⟩
    rw [inScope_apply models, result]
  · obtain ⟨frame, σ', same⟩ := models'.exists_frame
    rw [same] at models' runs
    exact .inr ⟨ending, after.closed scope, frame, σ', _,
      inScope_of_ended body models result,
      models'.closed, runs⟩

theorem repeatWhile_follows {c : Expr} {body : Stmt} {rounds : Nat} (proper : c.proper)
    (bodyFollows : ∀ {m : Machine} {scope : Nat} {w : World}, m.Models scope w →
      Follows (body.exec rounds scope m) scope w (.one body))
    (count : Nat) {m : Machine} {w : World} (models : m.Models scope w) :
    Follows (repeatWhile (eval scope c) (inScope scope fun inner => body.exec rounds inner) count m)
      scope w (.one (.loop c body)) := by
  -- only the rounds of this loop are counted down, its body keeps its own
  induction count generalizing m w with
  | zero => exact .inl ⟨m, rfl⟩
  | succ count ih =>
    obtain ⟨σ, sink⟩ := w
    rw [repeatWhile]
    obtain ⟨v, m₁, σ', result, models₁, derived⟩ | ⟨f, m₁, σ', result, models₁, derived⟩ :=
      derived_eval proper models
    · simp only [result]
      by_cases holds : v.truthy
      · simp only [holds, if_true]
        obtain ⟨m₂, ran⟩ | ⟨ending, m₂, frame, σ'', sink', ran, models₂, runs⟩ :=
          inScope_follows (fun inner => body.exec rounds inner) models₁
            (bodyFollows models₁.opened)
        · exact .inl ⟨m₂, by simp only [ran]⟩
        · cases ending with
          | done =>
            simp only [ran, ended]
            obtain ⟨m₃, out⟩ | ⟨ending, m₃, w', out, models₃, rest⟩ := ih models₂
            · exact .inl ⟨m₃, out⟩
            · exact .inr ⟨ending, m₃, w', out, models₃, .loopAgain derived (Value.truthy_iff.1 holds) runs rest⟩
          | broke =>
            exact .inr ⟨.done, m₂, _, by simp only [ran, ended], models₂,
              .loopBroken derived (Value.truthy_iff.1 holds) runs⟩
          | failed f =>
            exact .inr ⟨.failed f, m₂, _, by simp only [ran, ended], models₂,
              .loopBodyFails derived (Value.truthy_iff.1 holds) runs⟩
      · exact .inr ⟨.done, m₁, _, by simp [holds, ended], models₁,
          .loopEnds derived (mt Value.truthy_iff.2 holds)⟩
    · exact .inr ⟨.failed f, m₁, _, by simp only [result, ended], models₁, .loopFails derived⟩

end Execution

namespace Stmt

variable (rounds : Nat)

mutual

/-- A run of a proper statement follows the rules. -/
theorem exec_follows : (s : Stmt) → s.proper → ∀ {m : Machine} {scope : Nat} {w : World},
    m.Models scope w → Follows (s.exec rounds scope m) scope w (.one s)
  | .expr e, proper, m, scope, ⟨σ, sink⟩, models => by
    obtain ⟨v, m', σ', result, models', derived⟩ | ⟨f, m', σ', result, models', derived⟩ :=
      Execution.derived_eval proper models
    · exact .inr ⟨.done, m', _, map_of_ok result, models', .expr derived⟩
    · exact .inr ⟨.failed f, m', _, map_of_error result, models', .exprFails derived⟩
  | .print keyword e, proper, m, scope, ⟨σ, sink⟩, models => by
    rw [exec]
    obtain ⟨v, m', σ', result, models', derived⟩ | ⟨f, m', σ', result, models', derived⟩ :=
      Execution.derived_eval proper models
    · obtain ⟨m'', models'', printed⟩ := Execution.print_of_models keyword v models'
      by_cases fits : sink.fits (line v)
      · rw [if_pos fits] at printed
        exact .inr ⟨.done, m'', _, (bind_of_ok result).trans printed, models'', .print derived fits⟩
      · rw [if_neg fits] at printed
        exact .inr ⟨_, m'', _, (bind_of_ok result).trans printed, models'',
          .printFull derived (by simpa using fits)⟩
    · exact .inr ⟨.failed f, m', _, bind_of_error result, models', .printFails derived⟩
  | .declare name none, _, m, scope, w, models => by
    obtain ⟨frame, σ, same⟩ := models.exists_frame
    rw [same] at models ⊢
    obtain ⟨m', models', defined⟩ := Execution.define_of_models name .nil models
    exact .inr ⟨.done, m', _, defined, models', .declareNil⟩
  | .declare name (some e), proper, m, scope, ⟨σ, sink⟩, models => by
    rw [exec]
    obtain ⟨v, m', σ', result, models', derived⟩ | ⟨f, m', σ', result, models', derived⟩ :=
      Execution.derived_eval proper models
    · obtain ⟨frame, σ'', same⟩ := models'.exists_frame
      obtain ⟨rfl, -⟩ := World.mk.inj same
      obtain ⟨m'', models'', defined⟩ := Execution.define_of_models name v models'
      exact .inr ⟨.done, m'', _, (bind_of_ok result).trans defined, models'', .declare derived⟩
    · exact .inr ⟨.failed f, m', _, bind_of_error result, models', .declareFails derived⟩
  | .block body, proper, m, scope, ⟨σ, sink⟩, models => by
    obtain ⟨m', ran⟩ | ⟨ending, m', frame, σ', sink', ran, models', runs⟩ :=
      Execution.inScope_follows (fun inner => execAll rounds inner body) models
        (execAll_follows body proper models.opened)
    · exact .inl ⟨m', ran⟩
    · exact .inr ⟨ending, m', _, ran, models', .block runs⟩
  | .branch c consequent alternate, proper, m, scope, ⟨σ, sink⟩, models => by
    simp only [Stmt.proper, Bool.and_eq_true] at proper
    obtain ⟨v, m', σ', result, models', derived⟩ | ⟨f, m', σ', result, models', derived⟩ :=
      Execution.derived_eval proper.1.1 models
    · rw [exec, bind_of_ok result]
      by_cases holds : v.truthy
      · obtain ⟨m'', ran⟩ | ⟨ending, m'', frame, σ'', sink', ran, models'', runs⟩ :=
          Execution.inScope_follows (fun inner => execAll rounds inner consequent) models'
            (execAll_follows consequent proper.1.2 models'.opened)
        · exact .inl ⟨m'', by rw [if_pos holds, ran]⟩
        · exact .inr ⟨ending, m'', _, by rw [if_pos holds, ran], models'',
            .consequent derived (Value.truthy_iff.1 holds) runs⟩
      · obtain ⟨m'', ran⟩ | ⟨ending, m'', frame, σ'', sink', ran, models'', runs⟩ :=
          Execution.inScope_follows (fun inner => execAll rounds inner alternate) models'
            (execAll_follows alternate proper.2 models'.opened)
        · exact .inl ⟨m'', by rw [if_neg holds, ran]⟩
        · exact .inr ⟨ending, m'', _, by rw [if_neg holds, ran], models'',
            .alternate derived (mt Value.truthy_iff.2 holds) runs⟩
    · exact .inr ⟨.failed f, m', _, bind_of_error result, models', .branchFails derived⟩
  | .loop c body, proper, m, scope, w, models => by
    simp only [Stmt.proper, Bool.and_eq_true] at proper
    exact Execution.repeatWhile_follows proper.1 (exec_follows body proper.2) rounds models
  | .leave keyword, _, m, scope, w, models => .inr ⟨.broke, m, w, rfl, models, .leave⟩

theorem execAll_follows : (body : List Stmt) → allProper body →
    ∀ {m : Machine} {scope : Nat} {w : World}, m.Models scope w →
    Follows (execAll rounds scope body m) scope w (.all body)
  | [], _, m, scope, w, models => .inr ⟨.done, m, w, rfl, models, .nil⟩
  | s :: rest, proper, m, scope, w, models => by
    simp only [allProper, Bool.and_eq_true] at proper
    rw [execAll]
    obtain ⟨m', ran⟩ | ⟨ending, m', w', ran, models', runs⟩ := exec_follows s proper.1 models
    · exact .inl ⟨m', bind_of_error ran⟩
    · cases ending with
      | done =>
        rw [bind_of_ok ran]
        obtain ⟨m'', out⟩ | ⟨ending, m'', w'', out, models'', rest⟩ :=
          execAll_follows rest proper.2 models'
        · exact .inl ⟨m'', out⟩
        · exact .inr ⟨ending, m'', w'', out, models'', .cons runs rest⟩
      | broke => exact .inr ⟨.broke, m', w', bind_of_error ran, models', .consBroke runs⟩
      | failed f => exact .inr ⟨.failed f, m', w', bind_of_error ran, models', .consFails runs⟩

end

end Stmt

theorem Execution.repeatWhile_of_round {condition : Execution Value} {body : Execution Unit}
    {count : Nat} {m m' m'' : Machine} {v : Value} {ending : Ending}
    (result : condition m = .ok v m')
    (holds : v.truthy = true) (round : body m' = ended ending m'') :
    repeatWhile condition body (count + 1) m =
      match ending with
      | .done => repeatWhile condition body count m''
      | .broke => .ok () m''
      | .failed f => .error (.stop (.failure f)) m'' := by
  cases ending <;> simp only [repeatWhile, result, holds, if_true, round, ended]

namespace Reference.Code

def proper : Code → Bool
  | .one s => s.proper
  | .all body => Stmt.allProper body

/-- The machine's run of some code; a loop that stands there itself goes `count` rounds at most, and
the loops inside go `rounds`. -/
def exec (count rounds : Nat) (scope : ScopeId) : Code → Execution Unit
  | .one (.loop c body) =>
    Execution.repeatWhile (Execution.eval scope c)
      (Execution.inScope scope fun inner => body.exec rounds inner) count
  | .one s => s.exec rounds scope
  | .all body => Stmt.execAll rounds scope body

theorem exec_one (rounds : Nat) (scope : ScopeId) (s : Stmt) :
    (one s).exec rounds rounds scope = s.exec rounds scope := by
  cases s <;> simp only [exec, Stmt.exec]

theorem exec_body {body : Stmt} {scope : Nat} {m m' : Machine} {w : World} {ending : Ending}
    {enough rounds : Nat}
    (result : ∀ count rounds, enough ≤ count → enough ≤ rounds →
      (one body).exec count rounds (scope + 1) (m.opened scope) = ended ending m')
    (models : m.Models scope w) (deep : enough ≤ rounds) :
    Execution.inScope scope (fun inner => body.exec rounds inner) m =
      ended ending (m'.closed scope) := by
  have inner := result rounds rounds deep deep
  rw [exec_one] at inner
  exact Execution.inScope_of_ended (fun inner => body.exec rounds inner) models inner

/-- From some number of rounds on, the machine runs the code to a given ending. -/
def Reaches (code : Code) (scope : Nat) (m : Machine) (ending : Ending) (m' : Machine) : Prop :=
  ∃ enough, ∀ count rounds, enough ≤ count → enough ≤ rounds →
    code.exec count rounds scope m = ended ending m'

end Reference.Code

namespace Reference.Runs

/-- What the rules derive is what the machine does, given enough rounds. -/
theorem reaches {w w' : World} {code : Code} {ending : Ending} (runs : Runs w code ending w')
    (proper : code.proper) {m : Machine} {scope : Nat} (models : m.Models scope w) :
    ∃ m', m'.Models scope w' ∧ code.Reaches scope m ending m' := by
  induction runs generalizing m scope with
  | expr derived =>
    obtain ⟨m', models', result⟩ := Execution.eval_of_derived derived proper models
    exact ⟨m', models', 0, fun _ _ _ _ => map_of_ok result⟩
  | exprFails derived =>
    obtain ⟨m', models', result⟩ := Execution.eval_of_derived derived proper models
    exact ⟨m', models', 0, fun _ _ _ _ => map_of_error result⟩
  | @print _ _ _ keyword _ v derived fits =>
    obtain ⟨m', models', result⟩ := Execution.eval_of_derived derived proper models
    obtain ⟨m'', models'', printed⟩ := Execution.print_of_models keyword v models'
    rw [if_pos fits] at printed
    exact ⟨m'', models'', 0, fun _ _ _ _ => (bind_of_ok result).trans printed⟩
  | @printFull _ _ _ keyword _ v derived full =>
    obtain ⟨m', models', result⟩ := Execution.eval_of_derived derived proper models
    obtain ⟨m'', models'', printed⟩ := Execution.print_of_models keyword v models'
    rw [full] at printed
    exact ⟨m'', models'', 0, fun _ _ _ _ => (bind_of_ok result).trans printed⟩
  | printFails derived =>
    obtain ⟨m', models', result⟩ := Execution.eval_of_derived derived proper models
    exact ⟨m', models', 0, fun _ _ _ _ => bind_of_error result⟩
  | @declareNil _ _ _ name =>
    obtain ⟨m', models', defined⟩ := Execution.define_of_models name .nil models
    exact ⟨m', models', 0, fun _ _ _ _ => defined⟩
  | @declare _ _ _ _ name _ v derived =>
    obtain ⟨m', models', result⟩ := Execution.eval_of_derived derived proper models
    obtain ⟨m'', models'', defined⟩ := Execution.define_of_models name v models'
    exact ⟨m'', models'', 0, fun _ _ _ _ => (bind_of_ok result).trans defined⟩
  | declareFails derived =>
    obtain ⟨m', models', result⟩ := Execution.eval_of_derived derived proper models
    exact ⟨m', models', 0, fun _ _ _ _ => bind_of_error result⟩
  | @block _ _ _ _ _ body _ _ ih =>
    obtain ⟨m', models', enough, inside⟩ := ih proper models.opened
    refine ⟨m'.closed scope, models'.closed, enough, fun count rounds many deep => ?_⟩
    exact Execution.inScope_of_ended (fun inner => Stmt.execAll rounds inner body) models
      (inside count rounds many deep)
  | @consequent _ _ _ _ _ _ _ _ body _ _ derived holds _ ih =>
    simp only [Code.proper, Stmt.proper, Bool.and_eq_true] at proper
    obtain ⟨m', models', result⟩ := Execution.eval_of_derived derived proper.1.1 models
    obtain ⟨m'', models'', enough, inside⟩ := ih proper.1.2 models'.opened
    refine ⟨m''.closed scope, models''.closed, enough, fun count rounds many deep => ?_⟩
    rw [← Execution.inScope_of_ended (fun inner => Stmt.execAll rounds inner body) models'
      (inside count rounds many deep)]
    refine (bind_of_ok result).trans ?_
    rw [if_pos (Value.truthy_iff.2 holds)]
  | @alternate _ _ _ _ _ _ _ _ _ body _ derived untrue _ ih =>
    simp only [Code.proper, Stmt.proper, Bool.and_eq_true] at proper
    obtain ⟨m', models', result⟩ := Execution.eval_of_derived derived proper.1.1 models
    obtain ⟨m'', models'', enough, inside⟩ := ih proper.2 models'.opened
    refine ⟨m''.closed scope, models''.closed, enough, fun count rounds many deep => ?_⟩
    rw [← Execution.inScope_of_ended (fun inner => Stmt.execAll rounds inner body) models'
      (inside count rounds many deep)]
    refine (bind_of_ok result).trans ?_
    rw [if_neg (mt Value.truthy_iff.1 untrue)]
  | branchFails derived =>
    simp only [Code.proper, Stmt.proper, Bool.and_eq_true] at proper
    obtain ⟨m', models', result⟩ := Execution.eval_of_derived derived proper.1.1 models
    exact ⟨m', models', 0, fun _ _ _ _ => bind_of_error result⟩
  | loopEnds derived untrue =>
    have ends := mt Value.truthy_iff.1 untrue
    simp only [Code.proper, Stmt.proper, Bool.and_eq_true] at proper
    obtain ⟨m', models', result⟩ := Execution.eval_of_derived derived proper.1 models
    refine ⟨m', models', 1, fun count rounds many deep => ?_⟩
    obtain ⟨count, rfl⟩ := Nat.exists_eq_add_of_le' many
    simp [Code.exec, Execution.repeatWhile, result, ends, ended]
  | loopFails derived =>
    simp only [Code.proper, Stmt.proper, Bool.and_eq_true] at proper
    obtain ⟨m', models', result⟩ := Execution.eval_of_derived derived proper.1 models
    refine ⟨m', models', 1, fun count rounds many deep => ?_⟩
    obtain ⟨count, rfl⟩ := Nat.exists_eq_add_of_le' many
    simp [Code.exec, Execution.repeatWhile, result, ended]
  | loopBroken derived holds _ ih =>
    simp only [Code.proper, Stmt.proper, Bool.and_eq_true] at proper
    obtain ⟨m', models', result⟩ := Execution.eval_of_derived derived proper.1 models
    obtain ⟨m'', models'', enough, body⟩ := ih proper.2 models'.opened
    refine ⟨m''.closed scope, models''.closed, enough + 1, fun count rounds many deep => ?_⟩
    obtain ⟨count, rfl⟩ := Nat.exists_eq_add_of_le' many
    have round := Code.exec_body body models' (Nat.le_of_succ_le deep)
    exact Execution.repeatWhile_of_round result (Value.truthy_iff.2 holds) round
  | loopBodyFails derived holds _ ih =>
    simp only [Code.proper, Stmt.proper, Bool.and_eq_true] at proper
    obtain ⟨m', models', result⟩ := Execution.eval_of_derived derived proper.1 models
    obtain ⟨m'', models'', enough, body⟩ := ih proper.2 models'.opened
    refine ⟨m''.closed scope, models''.closed, enough + 1, fun count rounds many deep => ?_⟩
    obtain ⟨count, rfl⟩ := Nat.exists_eq_add_of_le' many
    have round := Code.exec_body body models' (Nat.le_of_succ_le deep)
    exact Execution.repeatWhile_of_round result (Value.truthy_iff.2 holds) round
  | loopAgain derived holds _ _ ihBody ihRest =>
    have parts := proper
    simp only [Code.proper, Stmt.proper, Bool.and_eq_true] at parts
    obtain ⟨m₁, models₁, result⟩ := Execution.eval_of_derived derived parts.1 models
    obtain ⟨m₂, models₂, enough, body⟩ := ihBody parts.2 models₁.opened
    obtain ⟨m₃, models₃, further, rest⟩ := ihRest proper models₂.closed
    -- one round for this body, and the others have to be enough for the rest of the loop
    refine ⟨m₃, models₃, enough + further + 1, fun count rounds many deep => ?_⟩
    obtain ⟨count, rfl⟩ := Nat.exists_eq_add_of_le' many
    have round := Code.exec_body body models₁ (Nat.le_trans (by omega) deep)
    rw [← rest (count + (enough + further)) rounds (by omega) (by omega)]
    exact Execution.repeatWhile_of_round result (Value.truthy_iff.2 holds) round
  | leave => exact ⟨m, models, 0, fun _ _ _ _ => rfl⟩
  | nil => exact ⟨m, models, 0, fun _ _ _ _ => rfl⟩
  | cons _ _ ihFirst ihRest =>
    simp only [Code.proper, Stmt.allProper, Bool.and_eq_true] at proper
    obtain ⟨m', models', enough, first⟩ := ihFirst proper.1 models
    obtain ⟨m'', models'', further, rest⟩ := ihRest proper.2 models'
    refine ⟨m'', models'', enough + further, fun count rounds many deep => ?_⟩
    have start := first rounds rounds (by omega) (by omega)
    rw [Code.exec_one] at start
    rw [← rest count rounds (by omega) (by omega)]
    exact bind_of_ok start
  | consBroke _ ih =>
    simp only [Code.proper, Stmt.allProper, Bool.and_eq_true] at proper
    obtain ⟨m', models', enough, first⟩ := ih proper.1 models
    refine ⟨m', models', enough, fun count rounds many deep => ?_⟩
    have start := first rounds rounds deep deep
    rw [Code.exec_one] at start
    exact bind_of_error start
  | consFails _ ih =>
    simp only [Code.proper, Stmt.allProper, Bool.and_eq_true] at proper
    obtain ⟨m', models', enough, first⟩ := ih proper.1 models
    refine ⟨m', models', enough, fun count rounds many deep => ?_⟩
    have start := first rounds rounds deep deep
    rw [Code.exec_one] at start
    exact bind_of_error start

end Reference.Runs

end Scriptlet
