import Scriptlet.Proofs.Remainders
import Scriptlet.Proofs.Results
import Scriptlet.Proofs.Stack

/-! The evaluator computes what the rules derive. Every proper expression has a result on every
stack, and an evaluation in nested scopes ends with that result on their stack, whether it is a
value or a failure. -/
namespace Scriptlet

open Reference

namespace Value

theorem truthy_iff {v : Value} : v.truthy ↔ Truthy v := by
  constructor
  · intro holds
    match v with
    | .bool true => exact .bool
    | .number x => exact .number
    | .string s => exact .string
  · intro truthy
    cases truthy <;> rfl

theorem equal_iff {v w : Value} : v.equal w ↔ Equal v w := by
  constructor
  · intro same
    match v, w with
    | .nil, .nil => exact .nil
    | .bool a, .bool b => exact eq_of_beq (a := a) same ▸ .bool
    | .number x, .number y => exact .number same
    | .string s, .string t => exact eq_of_beq (a := s) same ▸ .string
  · intro same
    cases same with
    | number same => exact same
    | _ => simp [equal]

theorem number?_eq_none {v : Value} : v.number? = none ↔ ∀ x, v ≠ .number x := by
  cases v <;> simp [number?]

end Value

instance : DecidablePred Truthy :=
  fun _ => decidable_of_iff _ Value.truthy_iff

instance (v w : Value) : Decidable (Equal v w) :=
  decidable_of_iff _ Value.equal_iff

def raised : Result → Except Stop Value
  | .ok v => .ok v
  | .error f => .error (.failure f)

def returned (r : Result) (s : Store) : EStateM.Result Stop Store Value :=
  match r with
  | .ok v => .ok v s
  | .error f => .error (.failure f) s

theorem ofExcept_raised (r : Result) (s : Store) :
    Evaluation.ofExcept (raised r) s = returned r s := by
  cases r <;> rfl

namespace Operator

variable {operator : Token} {v w : Value} {r : Result}

theorem unary_eq (rule : Unary operator v r) : unary operator v = raised r := by
  cases rule with
  | negate kind => simp [unary, kind, number, Value.number?, raised, bind, Except.bind, pure,
      Except.pure]
  | mismatch kind none =>
    simp [unary, kind, number, Value.number?_eq_none.2 none, raised, bind, Except.bind]
  | not kind untrue =>
    rw [← Value.truthy_iff, Bool.not_eq_true, ← Bool.not_eq_true', ← Bool.eq_iff_iff] at untrue
    simp [unary, kind, raised, untrue]

theorem unary_total (sign : operator.kind.isSign) (v : Value) : ∃ r, Unary operator v r := by
  simp only [Kind.isSign, List.mem_cons, List.not_mem_nil, or_false, decide_eq_true_eq] at sign
  obtain minus | bang := sign
  · cases number : v with
    | number x => exact ⟨_, .negate minus⟩
    | _ => exact ⟨_, .mismatch minus (by simp)⟩
  · exact ⟨_, .not (b := decide (¬ Truthy v)) bang decide_eq_true_iff⟩

theorem onNumbers_eq {x y : Float} (rule : Numeric operator x y r) :
    onNumbers operator x y = raised r := by
  cases rule with
  | quotient kind left right => simp [onNumbers, kind, divide, left, right, raised]
  | ofZero kind zero => simp [onNumbers, kind, divide, zero, raised]
  | byZero kind zero => simp [onNumbers, kind, divide, zero, raised]
  | remainder kind left => simp [onNumbers, kind, raised, left.eq_remainder]
  | _ kind => simp [onNumbers, kind, raised]

theorem numeric_total (kind : operator.kind ∈ numericKinds) (x y : Float) :
    ∃ r, Numeric operator x y r := by
  simp only [numericKinds, List.mem_cons, List.not_mem_nil, or_false] at kind
  obtain minus | star | slash | percent | greater | greaterEqual | less | lessEqual := kind
  · exact ⟨_, .minus minus⟩
  · exact ⟨_, .times star⟩
  · by_cases left : x == 0.0
    · exact ⟨_, .ofZero slash left⟩
    · by_cases right : y == 0.0
      · exact ⟨_, .byZero slash right⟩
      · exact ⟨_, .quotient slash (by simpa using left) (by simpa using right)⟩
  · exact ⟨_, .remainder percent (.of_remainder x y)⟩
  · exact ⟨_, .greater greater⟩
  · exact ⟨_, .greaterEqual greaterEqual⟩
  · exact ⟨_, .less less⟩
  · exact ⟨_, .lessEqual lessEqual⟩

theorem kind_of_numeric {x y : Float} (rule : Numeric operator x y r) :
    operator.kind ∈ numericKinds := by
  cases rule with
  | _ kind => simp [numericKinds, kind]

theorem binary_of_numeric (kind : operator.kind ∈ numericKinds) :
    (∀ x y, binary operator (.number x) (.number y) = onNumbers operator x y) ∧
      ∀ v w, (∀ x y, ¬ (v = .number x ∧ w = .number y)) →
        binary operator v w = .error (.failure (.needsNumbers operator)) := by
  have unlike : operator.kind ≠ .equalEqual ∧ operator.kind ≠ .bangEqual ∧
      operator.kind ≠ .plus := by
    simp only [numericKinds, List.mem_cons, List.not_mem_nil, or_false] at kind
    obtain minus | star | slash | percent | greater | greaterEqual | less | lessEqual := kind
    all_goals simp [*]
  constructor
  · intro x y
    simp [binary, unlike, Value.number?]
  · intro v w numbers
    cases v <;> cases w <;> simp_all [binary, Value.number?]

theorem binary_eq (rule : Binary operator v w r) : binary operator v w = raised r := by
  cases rule with
  | equal kind same =>
    rw [← Value.equal_iff, ← Bool.eq_iff_iff] at same
    simp [binary, kind, raised, same]
  | unequal kind differ =>
    rw [← Value.equal_iff, Bool.not_eq_true, ← Bool.not_eq_true', ← Bool.eq_iff_iff] at differ
    simp [binary, kind, raised, differ]
  | plus kind => simp [binary, kind, add, raised]
  | concatenate kind => simp [binary, kind, add, raised]
  | plusMismatch kind numbers strings =>
    cases v <;> cases w <;> simp_all [binary, add, raised]
  | numeric rule =>
    rw [(binary_of_numeric (kind_of_numeric rule)).1]
    exact onNumbers_eq rule
  | mismatch kind numbers => exact (binary_of_numeric kind).2 v w numbers

theorem binary_total (kind : operator.kind.isBinary) (v w : Value) :
    ∃ r, Binary operator v w r := by
  have cases : operator.kind = .equalEqual ∨ operator.kind = .bangEqual ∨ operator.kind = .plus ∨
      operator.kind ∈ numericKinds := by
    simp only [Kind.isBinary, numericKinds, List.mem_cons, List.not_mem_nil, or_false,
      decide_eq_true_eq] at kind ⊢
    tauto
  obtain equal | unequal | plus | numeric := cases
  · exact ⟨_, .equal (b := decide (Equal v w)) equal decide_eq_true_iff⟩
  · exact ⟨_, .unequal (b := decide (¬ Equal v w)) unequal decide_eq_true_iff⟩
  · by_cases numbers : ∃ x y, v = .number x ∧ w = .number y
    · obtain ⟨x, y, rfl, rfl⟩ := numbers
      exact ⟨_, .plus plus⟩
    · by_cases strings : ∃ s t, v = .string s ∧ w = .string t
      · obtain ⟨s, t, rfl, rfl⟩ := strings
        exact ⟨_, .concatenate plus⟩
      · push Not at numbers strings
        exact ⟨_, .plusMismatch plus (by simpa using numbers) (by simpa using strings)⟩
  · by_cases numbers : ∃ x y, v = .number x ∧ w = .number y
    · obtain ⟨x, y, rfl, rfl⟩ := numbers
      obtain ⟨r, rule⟩ := numeric_total numeric x y
      exact ⟨r, .numeric rule⟩
    · push Not at numbers
      exact ⟨_, .mismatch numeric (by simpa using numbers)⟩

theorem decides_iff (kind : operator.kind.isLogical) (v : Value) :
    decides operator v ↔ Decides operator v := by
  simp only [Kind.isLogical, List.mem_cons, List.not_mem_nil, or_false, decide_eq_true_eq] at kind
  obtain kind | kind := kind
  · simp [decides, Decides, kind, ← Value.truthy_iff]
  · simp [decides, Decides, kind, ← Value.truthy_iff]

theorem stepped_eq {x y : Float} (rule : Stepped operator x y) : stepped operator x = y := by
  cases rule with
  | up kind => simp [stepped, kind]
  | down kind => simp [stepped, kind]

theorem stepped_total (kind : operator.kind.isStep) (x : Float) : ∃ y, Stepped operator x y := by
  simp only [Kind.isStep, List.mem_cons, List.not_mem_nil, or_false, decide_eq_true_eq] at kind
  obtain up | down := kind
  · exact ⟨_, .up up⟩
  · exact ⟨_, .down down⟩

end Operator

namespace Reference

theorem Stack.assign_of_lookup {σ : Stack} {name : String} {v : Value}
    (found : σ.lookup name = some v)
    (w : Value) : ∃ σ', σ.assign name w = some σ' := by
  induction σ with
  | nil => simp [lookup] at found
  | cons frame outer ih =>
    by_cases member : name ∈ frame
    · exact ⟨frame.insert name w :: outer, by simp [assign, member]⟩
    · rw [lookup, Finmap.lookup_eq_none.2 member] at found
      obtain ⟨σ', assigned⟩ := ih found
      exact ⟨frame :: σ', by simp [assign, member, assigned]⟩

theorem eval_total {e : Expr} (proper : e.proper) (σ : Stack) : ∃ r σ', Eval σ e r σ' := by
  induction e generalizing σ with
  | literal v => exact ⟨_, _, .literal⟩
  | var name =>
    cases found : σ.lookup name.lexeme with
    | some v => exact ⟨_, _, .var found⟩
    | none => exact ⟨_, _, .unbound found⟩
  | assign name value ih =>
    obtain ⟨r, σ', result⟩ := ih proper σ
    cases r with
    | error f => exact ⟨_, _, .assignFails result⟩
    | ok v =>
      cases assigned : σ'.assign name.lexeme v with
      | some σ'' => exact ⟨_, _, .assign result assigned⟩
      | none => exact ⟨_, _, .assignUnbound result assigned⟩
  | group inner ih =>
    obtain ⟨r, σ', result⟩ := ih proper σ
    exact ⟨_, _, .group result⟩
  | unary operator right ih =>
    simp only [Expr.proper, Bool.and_eq_true] at proper
    obtain ⟨r, σ', result⟩ := ih proper.2 σ
    cases r with
    | error f => exact ⟨_, _, .unaryFails result⟩
    | ok v =>
      obtain ⟨r, rule⟩ := Operator.unary_total proper.1 v
      exact ⟨_, _, .unary result rule⟩
  | binary left operator right ihLeft ihRight =>
    simp only [Expr.proper, Bool.and_eq_true] at proper
    obtain ⟨r, σ', first⟩ := ihLeft proper.1.2 σ
    cases r with
    | error f => exact ⟨_, _, .binaryLeftFails first⟩
    | ok v =>
      obtain ⟨r, σ'', second⟩ := ihRight proper.2 σ'
      cases r with
      | error f => exact ⟨_, _, .binaryRightFails first second⟩
      | ok w =>
        obtain ⟨r, rule⟩ := Operator.binary_total proper.1.1 v w
        exact ⟨_, _, .binary first second rule⟩
  | logical left operator right ihLeft ihRight =>
    simp only [Expr.proper, Bool.and_eq_true] at proper
    obtain ⟨r, σ', first⟩ := ihLeft proper.1.2 σ
    cases r with
    | error f => exact ⟨_, _, .logicalFails first⟩
    | ok v =>
      by_cases decided : Decides operator v
      · exact ⟨_, _, .decided first decided⟩
      · obtain ⟨r, σ'', second⟩ := ihRight proper.2 σ'
        exact ⟨_, _, .undecided first decided second⟩
  | choice condition consequent alternate ihFirst ihSecond ihThird =>
    simp only [Expr.proper, Bool.and_eq_true] at proper
    obtain ⟨r, σ₁, first⟩ := ihFirst proper.1.1 σ
    cases r with
    | error f => exact ⟨_, _, .choiceFirstFails first⟩
    | ok u =>
      obtain ⟨r, σ₂, second⟩ := ihSecond proper.1.2 σ₁
      cases r with
      | error f => exact ⟨_, _, .choiceSecondFails first second⟩
      | ok v =>
        obtain ⟨r, σ₃, third⟩ := ihThird proper.2 σ₂
        cases r with
        | error f => exact ⟨_, _, .choiceThirdFails first second third⟩
        | ok w =>
          by_cases holds : Truthy u
          · exact ⟨_, _, .choiceSecond first second third holds⟩
          · exact ⟨_, _, .choiceThird first second third holds⟩
  | step operand operator ih =>
    simp only [Expr.proper, Bool.and_eq_true] at proper
    obtain ⟨r, σ', result⟩ := ih proper.2 σ
    cases r with
    | error f => exact ⟨_, _, .stepFails result⟩
    | ok v =>
      cases number : v.number? with
      | none => exact ⟨_, _, .stepMismatch result (Value.number?_eq_none.1 number)⟩
      | some x =>
        obtain rfl : v = .number x := by
          cases v <;> simp_all [Value.number?]
        by_cases bare : ∃ name, operand = .var name
        · obtain ⟨name, rfl⟩ := bare
          cases result with
          | var found =>
            obtain ⟨y, rule⟩ := Operator.stepped_total proper.1 x
            obtain ⟨σ', assigned⟩ := Stack.assign_of_lookup found (.number y)
            exact ⟨_, _, .stepName found rule assigned⟩
        · push Not at bare
          exact ⟨_, _, .stepOther bare result⟩

end Reference

/-- The scopes of a store, up to the current one, are the frames of a stack. -/
structure Store.Models (s : Store) (scope : Nat) (σ : Stack) : Prop where
  nested : s.Nested scope
  stack_eq : s.stack (scope + 1) = σ

namespace Store.Models

variable {s : Store} {scope : Nat} {σ σ' : Stack} {name : Token} {v : Value}

theorem get?_eq (models : s.Models scope σ) (name : String) :
    s.get? scope name = σ.lookup name := by
  rw [models.nested.get?_eq name (Nat.le_refl scope), models.stack_eq]

theorem get_of_bound (models : s.Models scope σ) (found : σ.lookup name.lexeme = some v) :
    Evaluation.get scope name s = .ok v s := by
  rw [Evaluation.get_apply, models.get?_eq, found]

theorem get_of_unbound (models : s.Models scope σ) (missing : σ.lookup name.lexeme = none) :
    Evaluation.get scope name s = .error (.failure (.undefined name)) s := by
  rw [Evaluation.get_apply, models.get?_eq, missing]

theorem assign_eq (models : s.Models scope σ) (name : String) (v : Value) :
    σ.assign name v =
      (s.owner? scope name).map fun owner => (s.define owner name v).stack (scope + 1) := by
  rw [← models.stack_eq, models.nested.assign_eq name v (Nat.le_refl scope)]

theorem assign_of_bound (models : s.Models scope σ) (assigned : σ.assign name.lexeme v = some σ') :
    ∃ s', Evaluation.assign scope name v s = .ok () s' ∧ s'.Models scope σ' := by
  rw [models.assign_eq] at assigned
  obtain ⟨owner, found, stack⟩ := Option.map_eq_some_iff.1 assigned
  refine ⟨s.define owner name.lexeme v, ?_, models.nested.define _ _ _, stack⟩
  rw [Evaluation.assign_apply, found]

theorem assign_of_unbound (models : s.Models scope σ) (missing : σ.assign name.lexeme v = none) :
    Evaluation.assign scope name v s = .error (.failure (.undefined name)) s := by
  rw [models.assign_eq] at missing
  rw [Evaluation.assign_apply, Option.map_eq_none_iff.1 missing]

end Store.Models

namespace Expr

theorem eval_step_of_name {scope : ScopeId} {name operator : Token} {x : Float} {s s' : Store}
    (result : (var name).eval scope s = .ok (.number x) s') :
    (step (var name) operator).eval scope s =
      (Evaluation.assign scope name (.number (Operator.stepped operator x)) >>=
        fun _ => pure (.number x)) s' := by
  rw [eval, bind_of_ok result]
  rfl

theorem eval_step_of_other {scope : ScopeId} {operand : Expr} {operator : Token} {x : Float}
    {s s' : Store} (other : ∀ name, operand ≠ .var name)
    (result : operand.eval scope s = .ok (.number x) s') :
    (step operand operator).eval scope s = .ok (.number x) s' := by
  rw [eval, bind_of_ok result]
  cases operand with
  | var name => exact absurd rfl (other name)
  | _ => rfl

/-- What the rules derive is what evaluation gives. -/
theorem eval_of_derived {e : Expr} {r : Result} {σ σ' : Stack} (derived : Eval σ e r σ')
    (proper : e.proper) {s : Store} {scope : Nat} (models : s.Models scope σ) :
    ∃ s', e.eval scope s = returned r s' ∧ s'.Models scope σ' := by
  induction derived generalizing s with
  | literal => exact ⟨s, rfl, models⟩
  | var found => exact ⟨s, models.get_of_bound found, models⟩
  | unbound missing => exact ⟨s, models.get_of_unbound missing, models⟩
  | assign _ assigned ih =>
    obtain ⟨s', result, models'⟩ := ih proper models
    obtain ⟨s'', done, models''⟩ := models'.assign_of_bound assigned
    refine ⟨s'', ?_, models''⟩
    rw [eval, bind_of_ok result, bind_of_ok done]
    rfl
  | assignUnbound _ missing ih =>
    obtain ⟨s', result, models'⟩ := ih proper models
    refine ⟨s', ?_, models'⟩
    rw [eval, bind_of_ok result, bind_of_error (models'.assign_of_unbound missing)]
    rfl
  | assignFails _ ih =>
    obtain ⟨s', result, models'⟩ := ih proper models
    exact ⟨s', by rw [eval, bind_of_error result]; rfl, models'⟩
  | group _ ih => exact ih proper models
  | unary _ rule ih =>
    simp only [Expr.proper, Bool.and_eq_true] at proper
    obtain ⟨s', result, models'⟩ := ih proper.2 models
    refine ⟨s', ?_, models'⟩
    rw [eval, bind_of_ok result, Operator.unary_eq rule, ofExcept_raised]
  | unaryFails _ ih =>
    simp only [Expr.proper, Bool.and_eq_true] at proper
    obtain ⟨s', result, models'⟩ := ih proper.2 models
    exact ⟨s', by rw [eval, bind_of_error result]; rfl, models'⟩
  | binary _ _ rule ihLeft ihRight =>
    simp only [Expr.proper, Bool.and_eq_true] at proper
    obtain ⟨s₁, first, models₁⟩ := ihLeft proper.1.2 models
    obtain ⟨s₂, second, models₂⟩ := ihRight proper.2 models₁
    refine ⟨s₂, ?_, models₂⟩
    rw [eval, bind_of_ok first, bind_of_ok second, Operator.binary_eq rule, ofExcept_raised]
  | binaryLeftFails _ ih =>
    simp only [Expr.proper, Bool.and_eq_true] at proper
    obtain ⟨s', result, models'⟩ := ih proper.1.2 models
    exact ⟨s', by rw [eval, bind_of_error result]; rfl, models'⟩
  | binaryRightFails _ _ ihLeft ihRight =>
    simp only [Expr.proper, Bool.and_eq_true] at proper
    obtain ⟨s₁, first, models₁⟩ := ihLeft proper.1.2 models
    obtain ⟨s₂, second, models₂⟩ := ihRight proper.2 models₁
    exact ⟨s₂, by rw [eval, bind_of_ok first, bind_of_error second]; rfl, models₂⟩
  | decided _ decides ih =>
    simp only [Expr.proper, Bool.and_eq_true] at proper
    obtain ⟨s', result, models'⟩ := ih proper.1.2 models
    refine ⟨s', ?_, models'⟩
    rw [eval, bind_of_ok result, if_pos ((Operator.decides_iff proper.1.1 _).2 decides)]
    rfl
  | undecided _ open_ _ ihLeft ihRight =>
    simp only [Expr.proper, Bool.and_eq_true] at proper
    obtain ⟨s₁, first, models₁⟩ := ihLeft proper.1.2 models
    obtain ⟨s₂, second, models₂⟩ := ihRight proper.2 models₁
    refine ⟨s₂, ?_, models₂⟩
    rw [eval, bind_of_ok first, if_neg fun decides =>
      open_ ((Operator.decides_iff proper.1.1 _).1 decides),
      second]
  | logicalFails _ ih =>
    simp only [Expr.proper, Bool.and_eq_true] at proper
    obtain ⟨s', result, models'⟩ := ih proper.1.2 models
    exact ⟨s', by rw [eval, bind_of_error result]; rfl, models'⟩
  | choiceSecond _ _ _ holds ihFirst ihSecond ihThird =>
    simp only [Expr.proper, Bool.and_eq_true] at proper
    obtain ⟨s₁, first, models₁⟩ := ihFirst proper.1.1 models
    obtain ⟨s₂, second, models₂⟩ := ihSecond proper.1.2 models₁
    obtain ⟨s₃, third, models₃⟩ := ihThird proper.2 models₂
    refine ⟨s₃, ?_, models₃⟩
    rw [eval, bind_of_ok first, bind_of_ok second, bind_of_ok third,
      if_pos (Value.truthy_iff.2 holds)]
    rfl
  | choiceThird _ _ _ untrue ihFirst ihSecond ihThird =>
    simp only [Expr.proper, Bool.and_eq_true] at proper
    obtain ⟨s₁, first, models₁⟩ := ihFirst proper.1.1 models
    obtain ⟨s₂, second, models₂⟩ := ihSecond proper.1.2 models₁
    obtain ⟨s₃, third, models₃⟩ := ihThird proper.2 models₂
    refine ⟨s₃, ?_, models₃⟩
    rw [eval, bind_of_ok first, bind_of_ok second, bind_of_ok third,
      if_neg (mt Value.truthy_iff.1 untrue)]
    rfl
  | choiceFirstFails _ ih =>
    simp only [Expr.proper, Bool.and_eq_true] at proper
    obtain ⟨s', result, models'⟩ := ih proper.1.1 models
    exact ⟨s', by rw [eval, bind_of_error result]; rfl, models'⟩
  | choiceSecondFails _ _ ihFirst ihSecond =>
    simp only [Expr.proper, Bool.and_eq_true] at proper
    obtain ⟨s₁, first, models₁⟩ := ihFirst proper.1.1 models
    obtain ⟨s₂, second, models₂⟩ := ihSecond proper.1.2 models₁
    exact ⟨s₂, by rw [eval, bind_of_ok first, bind_of_error second]; rfl, models₂⟩
  | choiceThirdFails _ _ _ ihFirst ihSecond ihThird =>
    simp only [Expr.proper, Bool.and_eq_true] at proper
    obtain ⟨s₁, first, models₁⟩ := ihFirst proper.1.1 models
    obtain ⟨s₂, second, models₂⟩ := ihSecond proper.1.2 models₁
    obtain ⟨s₃, third, models₃⟩ := ihThird proper.2 models₂
    exact ⟨s₃, by rw [eval, bind_of_ok first, bind_of_ok second, bind_of_error third]; rfl, models₃⟩
  | stepName found rule assigned =>
    obtain ⟨s', done, models'⟩ := models.assign_of_bound assigned
    refine ⟨s', ?_, models'⟩
    have old : (var _).eval scope s = .ok _ s := models.get_of_bound found
    rw [eval_step_of_name old, Operator.stepped_eq rule]
    exact bind_of_ok done
  | stepOther other _ ih =>
    simp only [Expr.proper, Bool.and_eq_true] at proper
    obtain ⟨s', result, models'⟩ := ih proper.2 models
    exact ⟨s', eval_step_of_other other result, models'⟩
  | stepMismatch _ mismatch ih =>
    simp only [Expr.proper, Bool.and_eq_true] at proper
    obtain ⟨s', result, models'⟩ := ih proper.2 models
    refine ⟨s', ?_, models'⟩
    rw [eval, bind_of_ok result, Operator.number, Value.number?_eq_none.2 mismatch]
    rfl
  | stepFails _ ih =>
    simp only [Expr.proper, Bool.and_eq_true] at proper
    obtain ⟨s', result, models'⟩ := ih proper.2 models
    exact ⟨s', by rw [eval, bind_of_error result]; rfl, models'⟩

theorem derived_eval {e : Expr} (proper : e.proper) {s : Store} {scope : Nat} {σ : Stack}
    (models : s.Models scope σ) :
    ∃ r s' σ', e.eval scope s = returned r s' ∧ s'.Models scope σ' ∧ Eval σ e r σ' := by
  obtain ⟨r, σ', derived⟩ := eval_total proper σ
  obtain ⟨s', result, models'⟩ := eval_of_derived derived proper models
  exact ⟨r, s', σ', result, models', derived⟩

end Expr

end Scriptlet
