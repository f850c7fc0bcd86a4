import Scriptlet.Proofs.Calls
import Scriptlet.Proofs.Frames

/-! A machine that knows which scope it is in. It goes into a new scope by changing the one it is in, and
has to find back however the body ends: done, left by a break, or stopped. A journal says what happened,
which no run ever looks at. Without scope and journal this is the machine that runs statements in a given
scope; and after every call it is in the global scope, in which just those names are new that were
declared on the way. -/
namespace Scriptlet

/-- A statement begins, or a line is ready to be printed while the variables are these. -/
inductive Event where
  | begins (s : Stmt)
  | prints (keyword : Token) (line : ByteArray) (store : Store)

structure Runner where
  machine : Machine
  current : ScopeId
  journal : List Event

abbrev Running := EStateM Exit Runner

namespace Runner

def start (sink : Sink) : Runner :=
  ⟨.start sink, Machine.globalScope, []⟩

def note (event : Event) : Running Unit :=
  modify fun r => { r with journal := r.journal ++ [event] }

def here {α : Type} (x : ScopeId → Execution α) : Running α :=
  fun r =>
    match x r.current r.machine with
    | .ok a machine => .ok a { r with machine }
    | .error exit machine => .error exit { r with machine }

def eval (e : Expr) : Running Value :=
  here fun scope => Execution.eval scope e

def define (name : Token) (v : Value) : Running Unit :=
  here fun scope => Execution.define scope name v

def print (keyword : Token) (v : Value) : Running Unit := do
  let r ← get
  note (.prints keyword (Reference.line v) r.machine.store)
  here fun _ => Execution.print keyword v

def opened (r : Runner) : Runner :=
  { r with
    machine := { r.machine with store := r.machine.store.add (some r.current) }
    current := r.machine.store.size }

def closed (r after : Runner) : Runner :=
  { after with
    machine := { after.machine with store := after.machine.store.truncate r.machine.store.size }
    current := r.current }

def inScope (body : Running Unit) : Running Unit :=
  fun r =>
    match body r.opened with
    | .ok a after => .ok a (r.closed after)
    | .error exit after => .error exit (r.closed after)

def repeatWhile (condition : Running Value) (body : Running Unit) : (rounds : Nat) → Running Unit
  | 0 => throw (.stop .exhausted)
  | rounds + 1 => fun r =>
    match condition r with
    | .error exit after => .error exit after
    | .ok v after =>
      if v.truthy then
        match body after with
        | .ok _ again => repeatWhile condition body rounds again
        | .error .left last => .ok () last
        | .error exit last => .error exit last
      else .ok () after

mutual

def exec (rounds : Nat) : Stmt → Running Unit
  | .expr e => discard (eval e)
  | .print keyword e => do
    let v ← eval e
    print keyword v
  | .declare name none => define name .nil
  | .declare name (some e) => do
    let v ← eval e
    define name v
  | .block body => inScope (execAll rounds body)
  | .branch condition consequent alternate => do
    let v ← eval condition
    if v.truthy then inScope (execAll rounds consequent)
    else inScope (execAll rounds alternate)
  | .loop condition body =>
    repeatWhile (eval condition)
      (inScope do
        note (.begins body)
        exec rounds body) rounds
  | .leave _ => throw .left

def execAll (rounds : Nat) : List Stmt → Running Unit
  | [] => return ()
  | s :: rest => do
    note (.begins s)
    exec rounds s
    execAll rounds rest

end

/-- Runs the statements in order, without the gaps. After a failure the runner is sent back to the
global scope. -/
def run (rounds : Nat) (entries : List (Option Stmt)) : EStateM Stop Runner Unit :=
  fun r =>
    match execAll rounds (entries.filterMap id) r with
    | .ok _ after => .ok () after
    | .error .left after => .ok () after
    | .error (.stop stop) after => .error stop { after with current := Machine.globalScope }

def evaluate (e : Expr) : EStateM Stop Runner Value :=
  fun r =>
    match e.eval r.current r.machine.store with
    | .ok v store => .ok v { r with machine := { r.machine with store } }
    | .error stop store => .error stop { r with machine := { r.machine with store } }

section Agreement

variable {α β : Type}

def carry (r : Runner) (more : List Event) :
    EStateM.Result Exit Machine α → EStateM.Result Exit Runner α
  | .ok a machine => .ok a { r with machine, journal := r.journal ++ more }
  | .error exit machine => .error exit { r with machine, journal := r.journal ++ more }

theorem carry_carry (r : Runner) (machine : Machine) (more further : List Event)
    (result : EStateM.Result Exit Machine α) :
    ({ r with machine, journal := r.journal ++ more } : Runner).carry further result =
      r.carry (more ++ further) result := by
  cases result <;> simp [carry]

/-- A run that does to the machine what an execution in the current scope does, and ends in this
scope. -/
def Conducts (x : Running α) (y : ScopeId → Execution α) : Prop :=
  ∀ r, ∃ more, x r = r.carry more (y r.current r.machine)

namespace Conducts

theorem here (x : ScopeId → Execution α) : Conducts (here x) x := by
  intro r
  refine ⟨[], ?_⟩
  rw [Runner.here]
  cases x r.current r.machine <;> simp [carry]

theorem pure (a : α) : Conducts (Pure.pure a) fun _ => Pure.pure a :=
  here fun _ => Pure.pure a

theorem throw (exit : Exit) : Conducts (MonadExcept.throw exit : Running α) fun _ =>
    MonadExcept.throw exit :=
  here fun _ => MonadExcept.throw exit

theorem bind {x : Running α} {y : ScopeId → Execution α} {f : α → Running β}
    {g : α → ScopeId → Execution β} (first : Conducts x y) (next : ∀ a, Conducts (f a) (g a)) :
    Conducts (x >>= f) fun scope => y scope >>= fun a => g a scope := by
  intro r
  obtain ⟨more, start⟩ := first r
  cases result : y r.current r.machine with
  | error exit machine =>
    rw [result] at start
    exact ⟨more, (bind_of_error start).trans (congrArg (r.carry more) (bind_of_error result).symm)⟩
  | ok a machine =>
    rw [result] at start
    obtain ⟨further, ends⟩ := next a { r with machine, journal := r.journal ++ more }
    have same : (y r.current >>= fun a => g a r.current) r.machine = g a r.current machine :=
      bind_of_ok result
    exact ⟨more ++ further, (bind_of_ok start).trans <| ends.trans <|
      (r.carry_carry machine more further _).trans (congrArg (r.carry _) same.symm)⟩

theorem map {x : Running α} {y : ScopeId → Execution α} (h : α → β) (first : Conducts x y) :
    Conducts (h <$> x) fun scope => h <$> y scope :=
  first.bind fun a => pure (h a)

theorem note_bind (event : Event) {x : Running α} {y : ScopeId → Execution α}
    (next : Conducts x y) : Conducts (note event >>= fun _ => x) y := by
  intro r
  obtain ⟨more, ends⟩ := next { r with journal := r.journal ++ [event] }
  refine ⟨event :: more, ends.trans ?_⟩
  cases y r.current r.machine <;> simp [carry]

theorem print (keyword : Token) (v : Value) :
    Conducts (print keyword v) fun _ => Execution.print keyword v :=
  fun r => note_bind (.prints keyword (Reference.line v) r.machine.store)
    (here fun _ => Execution.print keyword v) r

theorem inScope {x : Running Unit} {y : ScopeId → Execution Unit} (body : Conducts x y) :
    Conducts (inScope x) fun scope => Execution.inScope scope y := by
  intro r
  obtain ⟨more, ends⟩ := body r.opened
  refine ⟨more, ?_⟩
  rw [Runner.inScope, ends]
  simp only [Execution.inScope, opened]
  cases y r.machine.store.size { r.machine with store := r.machine.store.add (some r.current) } <;>
    rfl

theorem repeatWhile {x : Running Value} {x' : Running Unit} {y : ScopeId → Execution Value}
    {y' : ScopeId → Execution Unit} (condition : Conducts x y) (body : Conducts x' y') (count : Nat) :
    Conducts (repeatWhile x x' count) fun scope =>
      Execution.repeatWhile (y scope) (y' scope) count := by
  induction count with
  | zero => exact throw _
  | succ count ih =>
    intro r
    obtain ⟨more, tested⟩ := condition r
    simp only [Runner.repeatWhile, Execution.repeatWhile]
    cases result : y r.current r.machine with
    | error exit machine =>
      rw [result] at tested
      exact ⟨more, by rw [tested]; rfl⟩
    | ok v machine =>
      rw [result, carry] at tested
      rw [tested]
      dsimp only
      split
      · obtain ⟨further, ran⟩ := body { r with machine, journal := r.journal ++ more }
        cases result : y' r.current machine with
        | error exit last =>
          refine ⟨more ++ further, ?_⟩
          rw [ran, carry_carry, result]
          cases exit <;> rfl
        | ok _ again =>
          obtain ⟨rest, ends⟩ :=
            ih { r with machine := again, journal := r.journal ++ (more ++ further) }
          refine ⟨more ++ further ++ rest, ?_⟩
          rw [ran, carry_carry, result]
          exact ends.trans (r.carry_carry again (more ++ further) rest _)
      · exact ⟨more, rfl⟩

end Conducts

mutual

/-- A statement does to the machine what it does in the current scope, and ends in this scope. -/
theorem exec_conducts (rounds : Nat) : (s : Stmt) →
    Conducts (exec rounds s) fun scope => s.exec rounds scope
  | .expr e => (Conducts.here fun scope => Execution.eval scope e).map _
  | .print keyword _ => (Conducts.here _).bind fun v => .print keyword v
  | .declare name none => Conducts.here fun scope => Execution.define scope name .nil
  | .declare _ (some _) => (Conducts.here _).bind fun _ => .here _
  | .block body => (execAll_conducts rounds body).inScope
  | .branch condition consequent alternate => by
    refine (Conducts.here fun scope => Execution.eval scope condition).bind fun v => ?_
    split
    · exact (execAll_conducts rounds consequent).inScope
    · exact (execAll_conducts rounds alternate).inScope
  | .loop condition body =>
    (Conducts.here fun scope => Execution.eval scope condition).repeatWhile
      (Conducts.note_bind _ (exec_conducts rounds body)).inScope rounds
  | .leave _ => .throw .left

theorem execAll_conducts (rounds : Nat) : (body : List Stmt) →
    Conducts (execAll rounds body) fun scope => Stmt.execAll rounds scope body
  | [] => .pure ()
  | s :: rest =>
    .note_bind _ ((exec_conducts rounds s).bind fun _ => execAll_conducts rounds rest)

end

end Agreement

/-- The second runner is in the scope of the first, in which only these names are new. -/
structure Kept (targets declared : List String) (r r' : Runner) : Prop where
  current : r'.current = r.current
  framed : r.machine.store.Framed targets r.current declared r'.machine.store

structure Idle (r : Runner) : Prop where
  current : r.current = Machine.globalScope
  inside : Machine.globalScope < r.machine.store.size

theorem Kept.idle {targets declared : List String} {r r' : Runner} (kept : Kept targets declared r r')
    (idle : r.Idle) : r'.Idle where
  current := kept.current.trans idle.current
  inside := Nat.lt_of_lt_of_eq idle.inside kept.framed.size.symm

theorem idle_start (sink : Sink) : (start sink).Idle where
  current := rfl
  inside := Nat.zero_lt_one

section Calls

variable (rounds : Nat)

theorem exec_kept (s : Stmt) {r : Runner} (inside : r.current < r.machine.store.size) :
    Kept s.targets (s.declaredAt (s.exec rounds r.current r.machine)) r (final (exec rounds s r)) := by
  have framed := s.exec_framed rounds (List.Subset.refl _) r.current r.machine inside
  obtain ⟨more, same⟩ := exec_conducts rounds s r
  simp only [same]
  cases result : s.exec rounds r.current r.machine <;>
    · rw [result] at framed
      exact ⟨rfl, framed⟩

theorem run_kept (entries : List (Option Stmt)) {r : Runner} (idle : r.Idle) :
    Kept (Stmt.allTargets (entries.filterMap id))
      ((Stmt.completed rounds Machine.globalScope (entries.filterMap id) r.machine).flatMap
        Stmt.declared) r (final (run rounds entries r)) := by
  have inside : r.current < r.machine.store.size := idle.current.symm ▸ idle.inside
  have framed := Stmt.execAll_framed rounds (entries.filterMap id) (List.Subset.refl _) r.current
    r.machine inside
  obtain ⟨more, same⟩ := execAll_conducts rounds (entries.filterMap id) r
  simp only [run, same, ← idle.current]
  cases result : Stmt.execAll rounds r.current (entries.filterMap id) r.machine with
  | ok _ after =>
    rw [result] at framed
    exact ⟨rfl, framed⟩
  | error exit after =>
    rw [result] at framed
    cases exit <;> exact ⟨rfl, framed⟩

theorem evaluate_kept (e : Expr) {r : Runner} : Kept e.targets [] r (final (evaluate e r)) := by
  have framed := e.eval_framed r.current (List.Subset.refl _) r.machine.store
  rw [evaluate]
  cases result : e.eval r.current r.machine.store <;>
    · rw [result] at framed
      exact ⟨rfl, framed⟩

/-- What is left of a result without the scope and the journal. -/
def forget {α : Type} : EStateM.Result Stop Runner α → EStateM.Result Stop Machine α
  | .ok a r => .ok a r.machine
  | .error stop r => .error stop r.machine

theorem forget_run (entries : List (Option Stmt)) {r : Runner} (idle : r.Idle) :
    forget (run rounds entries r) = Machine.run rounds entries r.machine := by
  obtain ⟨more, same⟩ := execAll_conducts rounds (entries.filterMap id) r
  simp only [run, same, Machine.run, ← idle.current]
  cases Stmt.execAll rounds r.current (entries.filterMap id) r.machine with
  | ok _ after => rfl
  | error exit after => cases exit <;> rfl

theorem forget_evaluate (e : Expr) {r : Runner} (idle : r.Idle) :
    forget (evaluate e r) = Machine.evaluate e r.machine := by
  rw [evaluate, Machine.evaluate, idle.current]
  cases e.eval Machine.globalScope r.machine.store <;> rfl

def call (r : Runner) : Query → Runner
  | .run entries => final (run rounds entries r)
  | .evaluate e => final (evaluate e r)

theorem Idle.calls {r : Runner} (idle : r.Idle) (queries : List Query) :
    (queries.foldl (call rounds) r).Idle := by
  induction queries generalizing r with
  | nil => exact idle
  | cons q queries ih =>
    cases q with
    | run entries => exact ih ((run_kept rounds entries idle).idle idle)
    | evaluate e => exact ih ((evaluate_kept e).idle idle)

/-- However a statement ends, the runner is in the scope where it began, and of the scopes that were
there none has got another link, another name or another value, but for the name a declaration adds
to the current scope and for the names that are assigned to. So a runner is in the global scope after
every call, and its new names are those of the declarations that ended well. -/
theorem scopes_respected :
    (∀ (s : Stmt) (r : Runner), r.current < r.machine.store.size →
      (∃ more, exec rounds s r = r.carry more (s.exec rounds r.current r.machine)) ∧
      Kept s.targets (s.declaredAt (s.exec rounds r.current r.machine)) r
        (final (exec rounds s r))) ∧
    (∀ r : Runner, r.Idle →
      (∀ entries, forget (run rounds entries r) = Machine.run rounds entries r.machine ∧
        Kept (Stmt.allTargets (entries.filterMap id))
          ((Stmt.completed rounds Machine.globalScope (entries.filterMap id) r.machine).flatMap
            Stmt.declared) r (final (run rounds entries r))) ∧
      ∀ e, forget (evaluate e r) = Machine.evaluate e r.machine ∧
        Kept e.targets [] r (final (evaluate e r))) ∧
    ∀ (sink : Sink) (queries : List Query), (queries.foldl (call rounds) (start sink)).Idle := by
  refine ⟨fun s r inside => ⟨exec_conducts rounds s r, exec_kept rounds s inside⟩,
    fun r idle => ⟨fun entries => ?_, fun e => ?_⟩, fun sink queries => ?_⟩
  · exact ⟨forget_run rounds entries idle, run_kept rounds entries idle⟩
  · exact ⟨forget_evaluate e idle, evaluate_kept e⟩
  · exact (idle_start sink).calls rounds queries

end Calls

def failingSample : List (Option Stmt) :=
  let name (lexeme : String) : Token := ⟨.name, lexeme, none, .start⟩
  [some (.declare (name "a") (some (.literal (.string "old")))), none,
    some (.loop (.literal (.bool true))
      (.block [.declare (name "b") none, .expr (.assign (name "a") (.literal (.string "new"))),
        .expr (.var (name "c"))])),
    some (.declare (name "d") none)]

theorem failingSample_respects_scopes :
    (start .unlimited).Idle ∧
      Kept ["a"] ["a"] (start .unlimited) (final (run 1 failingSample (start .unlimited))) ∧
      (final (run 1 failingSample (start .unlimited))).machine.store.slot Machine.globalScope "a" =
        some (.string "new") := by
  have kept := (((scopes_respected 1).2.1 _ (idle_start .unlimited)).1 failingSample).2
  have targets : Stmt.allTargets (failingSample.filterMap id) = ["a"] := by decide +kernel
  have declared : (Stmt.completed 1 Machine.globalScope (failingSample.filterMap id)
      (start .unlimited).machine).flatMap Stmt.declared = ["a"] := by decide +kernel
  rw [targets, declared] at kept
  exact ⟨idle_start _, kept, by decide +kernel⟩

end Runner

end Scriptlet
