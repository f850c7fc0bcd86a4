import Scriptlet.Proofs.AgreementStmt

/-! Calls one after another on a machine. What each shows, its answer with what was printed and the
global variables, is what the rules derive from an empty frame. -/
namespace Scriptlet

open Reference

/-- What a machine is asked: to run entries, some of them gaps, or to evaluate an expression. -/
inductive Query where
  | run (entries : List (Option Stmt))
  | evaluate (e : Expr)

inductive Answer where
  | value (v : Value)
  | done
  | failed (f : Failure)

structure Seen where
  answer : Answer
  written : ByteArray
  globals : Frame

def Query.proper : Query → Bool
  | .run entries => Stmt.allProper (entries.filterMap id)
  | .evaluate e => e.proper

namespace Reference

/-- One call from one world to another. To leave a loop where there is none ends the call. -/
inductive Answers : World → Query → Answer → World → Prop
  | value {σ σ' : Stack} {sink : Sink} {e : Expr} {v : Value} : Eval σ e (.ok v) σ' →
      Answers ⟨σ, sink⟩ (.evaluate e) (.value v) ⟨σ', sink⟩
  | valueFails {σ σ' : Stack} {sink : Sink} {e : Expr} {f : Failure} : Eval σ e (.error f) σ' →
      Answers ⟨σ, sink⟩ (.evaluate e) (.failed f) ⟨σ', sink⟩
  | done {w w' : World} {entries : List (Option Stmt)} :
      Runs w (.all (entries.filterMap id)) .done w' → Answers w (.run entries) .done w'
  | broke {w w' : World} {entries : List (Option Stmt)} :
      Runs w (.all (entries.filterMap id)) .broke w' → Answers w (.run entries) .done w'
  | fails {w w' : World} {entries : List (Option Stmt)} {f : Failure} :
      Runs w (.all (entries.filterMap id)) (.failed f) w' → Answers w (.run entries) (.failed f) w'

inductive Transcript : Frame → Sink → List Query → List Seen → Prop
  | nil {globals : Frame} {sink : Sink} : Transcript globals sink [] []
  | cons {globals globals' : Frame} {sink sink' : Sink} {q : Query} {queries : List Query}
      {answer : Answer} {seen : List Seen} :
      Answers ⟨[globals], sink⟩ q answer ⟨[globals'], sink'⟩ →
      Transcript globals' sink' queries seen →
      Transcript globals sink (q :: queries) (⟨answer, sink'.written, globals'⟩ :: seen)

end Reference

namespace Machine

def settled {α : Type} (answer : α → Answer) : EStateM.Result Stop Machine α →
    EStateM.Result Stop Machine Answer
  | .ok a m => .ok (answer a) m
  | .error (.failure f) m => .ok (.failed f) m
  | .error stop m => .error stop m

def answer (rounds : Nat) (m : Machine) : Query → EStateM.Result Stop Machine Answer
  | .run entries => settled (fun _ => .done) (run rounds entries m)
  | .evaluate e => settled .value (evaluate e m)

def globals (m : Machine) : Frame :=
  m.store.frameAt globalScope

/-- What is seen of calls in a row, or why one of them has no answer. -/
def transcript (rounds : Nat) (m : Machine) : List Query → Except Stop (List Seen)
  | [] => .ok []
  | q :: queries =>
    match m.answer rounds q with
    | .ok answer m' => (⟨answer, m'.sink.written, m'.globals⟩ :: ·) <$> m'.transcript rounds queries
    | .error stop _ => .error stop

variable {m : Machine} {w w' : World} {q : Query} {answer : Answer}

theorem models_start (sink : Sink) : (start sink).Models globalScope ⟨[∅], sink⟩ := by
  refine ⟨⟨⟨rfl, ?_⟩, rfl⟩, rfl⟩
  intro id scope found
  cases id with
  | zero =>
    obtain rfl : ⟨[], none⟩ = scope := by simpa [start, Store.empty, Store.add] using found
    rfl
  | succ id => simp [start, Store.empty, Store.add] at found

theorem Models.eq_globals (models : m.Models globalScope w) : w = ⟨[m.globals], m.sink⟩ := by
  obtain ⟨σ, sink⟩ := w
  have stack : m.store.stack 1 = σ := models.store.stack_eq
  have same : m.sink = sink := models.sink
  rw [← stack, same]
  rfl

theorem run_of_ended {rounds : Nat} {entries : List (Option Stmt)} {ending : Ending} {m' : Machine}
    (result : Stmt.execAll rounds globalScope (entries.filterMap id) m = ended ending m') :
    m.answer rounds (.run entries) =
      .ok (match ending with
        | .failed f => .failed f
        | _ => .done) m' := by
  simp only [Machine.answer, run, result]
  cases ending <;> rfl

theorem evaluate_of_returned {rounds : Nat} {e : Expr} {r : Result} {s' : Store}
    (result : e.eval globalScope m.store = returned r s') :
    m.answer rounds (.evaluate e) =
      .ok (match r with
        | .ok v => .value v
        | .error f => .failed f) { m with store := s' } := by
  simp only [Machine.answer, evaluate, result]
  cases r <;> rfl

theorem answer_follows (proper : q.proper) (models : m.Models globalScope w) (rounds : Nat) :
    (∃ m', m.answer rounds q = .error .exhausted m') ∨
      ∃ answer m' w', m.answer rounds q = .ok answer m' ∧ m'.Models globalScope w' ∧
        Answers w q answer w' := by
  cases q with
  | run entries =>
    obtain ⟨m', result⟩ | ⟨ending, m', w', result, models', runs⟩ :=
      Stmt.execAll_follows rounds (entries.filterMap id) proper models
    · refine .inl ⟨m', ?_⟩
      simp only [Machine.answer, run, result]
      rfl
    · refine .inr ⟨_, m', w', run_of_ended result, models', ?_⟩
      cases ending with
      | done => exact .done runs
      | broke => exact .broke runs
      | failed f => exact .fails runs
  | evaluate e =>
    obtain ⟨σ, sink⟩ := w
    obtain ⟨r, s', σ', result, models', derived⟩ := Expr.derived_eval proper models.store
    refine .inr ⟨_, _, _, evaluate_of_returned result, models.with_store models', ?_⟩
    cases r with
    | ok v => exact .value derived
    | error f => exact .valueFails derived

theorem answer_of_derived (derived : Answers w q answer w') (proper : q.proper)
    (models : m.Models globalScope w) :
    ∃ m', m'.Models globalScope w' ∧
      ∃ enough, ∀ rounds, enough ≤ rounds → m.answer rounds q = .ok answer m' := by
  cases derived with
  | value derived =>
    obtain ⟨s', result, models'⟩ := Expr.eval_of_derived derived proper models.store
    exact ⟨_, models.with_store models', 0, fun _ _ => evaluate_of_returned result⟩
  | valueFails derived =>
    obtain ⟨s', result, models'⟩ := Expr.eval_of_derived derived proper models.store
    exact ⟨_, models.with_store models', 0, fun _ _ => evaluate_of_returned result⟩
  | done runs =>
    obtain ⟨m', models', enough, result⟩ := runs.reaches proper models
    exact ⟨m', models', enough, fun rounds deep => run_of_ended (result rounds rounds deep deep)⟩
  | broke runs =>
    obtain ⟨m', models', enough, result⟩ := runs.reaches proper models
    exact ⟨m', models', enough, fun rounds deep => run_of_ended (result rounds rounds deep deep)⟩
  | fails runs =>
    obtain ⟨m', models', enough, result⟩ := runs.reaches proper models
    exact ⟨m', models', enough, fun rounds deep => run_of_ended (result rounds rounds deep deep)⟩

theorem transcript_follows {queries : List Query} (proper : ∀ q ∈ queries, q.proper)
    (models : m.Models globalScope w) (rounds : Nat) :
    m.transcript rounds queries = .error .exhausted ∨
      ∃ seen, m.transcript rounds queries = .ok seen ∧
        Transcript m.globals m.sink queries seen := by
  induction queries generalizing m w with
  | nil => exact .inr ⟨[], rfl, .nil⟩
  | cons q queries ih =>
    rw [transcript]
    obtain rfl := models.eq_globals
    obtain ⟨m', result⟩ | ⟨answer, m', w', result, models', derived⟩ :=
      answer_follows (proper q List.mem_cons_self) models rounds
    · exact .inl (by rw [result])
    · obtain rfl := models'.eq_globals
      have rest := ih (fun q member => proper q (List.mem_cons_of_mem _ member)) models'
      rw [result]
      obtain out | ⟨seen, out, derived'⟩ := rest
      · exact .inl (by simp only [out]; rfl)
      · exact .inr ⟨_, by simp only [out]; rfl, .cons derived derived'⟩

theorem transcript_of_derived {globals : Frame} {sink : Sink} {queries : List Query}
    {seen : List Seen} (derived : Transcript globals sink queries seen)
    (proper : ∀ q ∈ queries, q.proper) (models : m.Models globalScope ⟨[globals], sink⟩) :
    ∃ enough, ∀ rounds, enough ≤ rounds → m.transcript rounds queries = .ok seen := by
  induction derived generalizing m with
  | nil => exact ⟨0, fun _ _ => rfl⟩
  | cons first _ ih =>
    obtain ⟨m', models', enough, result⟩ :=
      answer_of_derived first (proper _ List.mem_cons_self) models
    obtain ⟨further, rest⟩ := ih (fun q member => proper q (List.mem_cons_of_mem _ member)) models'
    refine ⟨enough + further, fun rounds deep => ?_⟩
    have world := World.mk.inj models'.eq_globals
    obtain ⟨rfl⟩ := List.cons.inj world.1
    obtain rfl := world.2
    rw [transcript, result rounds (by omega)]
    simp only [rest rounds (by omega)]
    rfl

/-- Calls on a new machine give what the rules derive, and only that: some number of rounds shows
exactly what has a derivation, and no call lacks an answer for any other reason than its rounds. -/
theorem transcript_iff_derived (sink : Sink) (queries : List Query)
    (proper : ∀ q ∈ queries, q.proper) :
    (∀ seen, (∃ rounds, (start sink).transcript rounds queries = .ok seen) ↔
      Transcript ∅ sink queries seen) ∧
    ∀ rounds stop, (start sink).transcript rounds queries = .error stop → stop = .exhausted := by
  have follows := transcript_follows proper (models_start sink)
  refine ⟨fun seen => ⟨?_, ?_⟩, ?_⟩
  · rintro ⟨rounds, result⟩
    obtain out | ⟨seen', out, derived⟩ := follows rounds
    · rw [out] at result
      nomatch result
    · rw [out] at result
      obtain rfl := Except.ok.inj result
      exact derived
  · intro derived
    obtain ⟨enough, result⟩ := transcript_of_derived derived proper (models_start sink)
    exact ⟨enough, result enough (Nat.le_refl enough)⟩
  · intro rounds stop result
    obtain out | ⟨seen, out, -⟩ := follows rounds
    · exact (Except.error.inj (out.symm.trans result)).symm
    · rw [out] at result
      nomatch result

def hidingSample : List Query :=
  let word (kind : Kind) (lexeme : String) : Token := ⟨kind, lexeme, none, .start⟩
  [.run [some (.declare (word .name "a") (some (.literal (.string "outer")))), none,
      some (.loop (.literal (.bool true))
        (.block [.declare (word .name "a") (some (.literal (.string "inner"))),
          .print (word .printWord "print") (.var (word .name "a")),
          .leave (word .breakWord "break")]))],
    .evaluate (.logical (.var (word .name "a")) (word .orWord "or") (.var (word .name "b"))),
    .run [some (.block [.declare (word .name "b") none]), some (.expr (.var (word .name "b")))]]

theorem hidingSample_transcript :
    (∀ q ∈ hidingSample, q.proper) ∧
      Transcript ∅ .unlimited hidingSample
        [⟨.done, .empty ++ line (.string "inner"), Finmap.insert "a" (.string "outer") ∅⟩,
          ⟨.value (.string "outer"), .empty ++ line (.string "inner"),
            Finmap.insert "a" (.string "outer") ∅⟩,
          ⟨.failed (.undefined ⟨.name, "b", none, .start⟩), .empty ++ line (.string "inner"),
            Finmap.insert "a" (.string "outer") ∅⟩] := by
  have proper : ∀ q ∈ hidingSample, q.proper := by decide
  exact ⟨proper, ((transcript_iff_derived .unlimited hidingSample proper).1 _).1 ⟨1, rfl⟩⟩

end Machine
end Scriptlet
