import Scriptlet.Proofs.Replies

/-! The phases of a call. The state of a session has one list of reports for all of them: a call clears
the list, and then the scanner, the reader and the machine add to it, one after the other. What comes of
it is the reply of the session, whatever was on the list before; so the list falls into what the text
alone makes the first two report, and at most one report on how the run failed. -/
namespace Scriptlet

open Session (Text)

/-- A machine with the list that every phase adds to. -/
structure Session.State where
  machine : Machine
  reports : Reports

inductive Session.Halt where
  | stop (s : Stop)
  | defect

/-- A part of a call. -/
abbrev Session.Phase := EStateM Session.Halt Session.State

structure Shown where
  echo : Option Value
  reports : Reports

def Reply.shown (given : Reply) : Shown :=
  ⟨given.echo, given.reports⟩

def Session.Text.walk : Text → Walk Parsed
  | .program _ => Walk.program
  | .line _ => Walk.line

namespace Session.State

def clear : Phase Unit :=
  modify fun s => { s with reports := [] }

def report (r : Report) : Phase Unit :=
  modify fun s => { s with reports := s.reports ++ [r] }

def scanFrom (p : Position) : List Piece → Phase (List Token)
  | [] => return [.finish p]
  | ⟨text, .token kind literal⟩ :: rest => do
    let tokens ← scanFrom (p.after text) rest
    return ⟨kind, String.ofList text, literal, p⟩ :: tokens
  | ⟨text, .fault f⟩ :: rest => do
    report (.lexical p f)
    scanFrom (p.after text) rest
  | ⟨text, _⟩ :: rest => scanFrom (p.after text) rest

def read (walk : Walk Parsed) (tokens : List Token) : Phase Parsed :=
  fun s =>
    match walk { Cursor.start tokens.toArray with reports := s.reports } with
    | .value parsed c => .ok parsed { s with reports := c.reports }
    | .failure c => .error .defect { s with reports := c.reports }
    | .defect => .error .defect s

def ask (rounds : Nat) (q : Query) : Phase Answer :=
  fun s =>
    match s.machine.answer rounds q with
    | .ok answer machine => .ok answer { s with machine }
    | .error stop machine => .error (.stop stop) { s with machine }

/-- A failure goes on the list; a value is echoed if nothing is on it. -/
def conclude : Answer → Phase (Option Value)
  | .value v => return if (← get).reports.isEmpty then some v else none
  | .done => return none
  | .failed f => do
    report (.runtime f)
    return none

def take (rounds : Nat) (text : Text) : Phase (Option Value) := do
  clear
  let tokens ← scanFrom .start (Piece.split text.source.toList)
  let parsed ← read text.walk tokens
  let answer ← ask rounds parsed.query
  conclude answer

def takeAll (rounds : Nat) : List Text → Phase (List Shown)
  | [] => return []
  | text :: texts => do
    let echo ← take rounds text
    let s ← get
    let shows ← takeAll rounds texts
    return ⟨echo, s.reports⟩ :: shows

theorem scanFrom_eq (p : Position) (pieces : List Piece) (s : State) :
    scanFrom p pieces s =
      .ok ((Scan.placed p pieces).filterMap Scan.token? ++
          [.finish (p.after (pieces.flatMap Piece.text))])
        { s with reports := s.reports ++ (Scan.placed p pieces).filterMap Scan.report? } := by
  induction pieces generalizing p s with
  | nil => simp [scanFrom, Scan.placed, pure, EStateM.pure]
  | cons piece rest ih =>
    obtain ⟨text, form⟩ := piece
    have further := ih (p.after text)
    cases form with
    | token kind literal =>
      rw [scanFrom, bind_of_ok (further s)]
      simp [Scan.placed, List.filterMap_cons, Scan.token?, Scan.report?, pure, EStateM.pure]
    | fault f =>
      have added : report (.lexical p f) s =
          .ok () { s with reports := s.reports ++ [.lexical p f] } := rfl
      rw [scanFrom, bind_of_ok added, further]
      simp [Scan.placed, List.filterMap_cons, Scan.token?, Scan.report?]
    | blank => simp [scanFrom, further, Scan.placed, List.filterMap_cons, Scan.token?, Scan.report?]
    | comment => simp [scanFrom, further, Scan.placed, List.filterMap_cons, Scan.token?, Scan.report?]

theorem scan_eq (source : String) (s : State) :
    scanFrom .start (Piece.split source.toList) s =
      .ok (scan source).tokens { s with reports := s.reports ++ (scan source).reports } := by
  rw [scanFrom_eq, Piece.flatMap_split]
  rfl

theorem read_eq (text : Text) (s : State) :
    read text.walk (scan text.source).tokens s =
      .ok text.reading.parsed { s with reports := s.reports ++ text.reading.reports } := by
  have settles : SettlesAfter s.reports
      (text.walk { Cursor.start (scan text.source).tokens.toArray with reports := s.reports })
      text.reading := by
    obtain ⟨tail, ts, split, clean⟩ := Tail.exists_of_closed (scan_closed text.source)
    cases text with
    | program source =>
      simp only [Text.walk, Text.reading, Text.source] at split ⊢
      rw [split]
      exact program_settlesAfter clean
    | line source =>
      simp only [Text.walk, Text.reading, Text.source] at split ⊢
      rw [split]
      exact line_settlesAfter clean
  obtain ⟨c, ended, reports, -, -⟩ := settles
  simp only [read, ended, reports]

/-- Whatever is on the list before, a call ends with the reply of the session. -/
theorem take_eq (rounds : Nat) (text : Text) (s : State) :
    take rounds text s =
      match Session.take rounds text s.machine with
      | .ok given m => .ok given.echo ⟨m, given.reports⟩
      | .error stop m => .error (.stop stop) ⟨m, text.reports⟩ := by
  have cleared : clear s = .ok () ⟨s.machine, []⟩ := rfl
  -- from here on the list is what the phases of this call have put on it
  rw [take, bind_of_ok cleared, bind_of_ok (scan_eq ..), bind_of_ok (read_eq ..), Session.take_eq,
    Session.perform_eq]
  cases result : s.machine.answer rounds text.reading.parsed.query with
  | error stop m =>
    have asked : ask rounds text.reading.parsed.query ⟨s.machine, text.reports⟩ =
        .error (.stop stop) ⟨m, text.reports⟩ := by
      simp only [ask, result]
    exact bind_of_error asked
  | ok answer m =>
    have asked : ask rounds text.reading.parsed.query ⟨s.machine, text.reports⟩ =
        .ok answer ⟨m, text.reports⟩ := by
      simp only [ask, result]
    refine (bind_of_ok asked).trans ?_
    cases answer <;> rfl

theorem take_eq_ok_iff {rounds : Nat} {text : Text} {s s' : State} {echo : Option Value} :
    take rounds text s = .ok echo s' ↔
      ∃ given, Session.take rounds text s.machine = .ok given s'.machine ∧
        given.shown = ⟨echo, s'.reports⟩ := by
  obtain ⟨m', reports'⟩ := s'
  rw [take_eq]
  cases Session.take rounds text s.machine with
  | ok given m => simp [Reply.shown, and_left_comm]
  | error stop m => simp

theorem takeAll_cons_iff {rounds : Nat} {text : Text} {texts : List Text} {s s' : State}
    {shows : List Shown} :
    takeAll rounds (text :: texts) s = .ok shows s' ↔
      ∃ echo between rest, take rounds text s = .ok echo between ∧
        takeAll rounds texts between = .ok rest s' ∧ shows = ⟨echo, between.reports⟩ :: rest := by
  rw [takeAll, bind_eq_ok_iff]
  refine exists_congr fun echo => exists_congr fun between => ?_
  have looked : (get : Phase State) between = .ok between between := rfl
  rw [bind_of_ok looked, bind_eq_ok_iff]
  constructor
  · rintro ⟨one, rest, last, others, ended⟩
    obtain ⟨rfl, rfl⟩ := EStateM.Result.ok.inj ended
    exact ⟨rest, one, others, rfl⟩
  · rintro ⟨rest, one, others, rfl⟩
    exact ⟨one, rest, s', others, rfl⟩

end Session.State

namespace Answer

def failure? : Answer → Option Failure
  | .failed f => some f
  | _ => none

theorem failure?_eq_some {answer : Answer} {f : Failure} :
    answer.failure? = some f ↔ answer = .failed f := by
  cases answer <;> simp [failure?]

end Answer

/-- One call from one machine to another, which is the session's, with its list of reports in phases.
The first two parts of the list depend on the text alone; a report on the run is last and alone, and
there is one exactly if the machine failed. The call echoes a value exactly if nothing is on the list
and the text is a line with a lone expression that has this value in the global scope. -/
structure Phased (rounds : Nat) (text : Text) (m : Machine) (seen : Shown) (m' : Machine) :
    Prop where
  agrees : ∃ given, Session.take rounds text m = .ok given m' ∧ seen = given.shown
  lexical : ∀ r ∈ (scan text.source).reports, r.kind = .lexical
  grammatical : ∀ r ∈ text.reading.reports, r.kind = .grammar
  runtime : ∃ failure : Option Failure,
    seen.reports = (scan text.source).reports ++ text.reading.reports ++
      failure.toList.map Report.runtime ∧
    (∀ f, failure = some f ↔ m.answer rounds text.reading.parsed.query = .ok (.failed f) m') ∧
    ∀ f, (Report.runtime f).kind.atRuntime
  echo : ∀ v, seen.echo = some v ↔ seen.reports = [] ∧ ∃ source e, text = .line source ∧
    text.reading.parsed = .expression e ∧
    ∃ store, e.eval Machine.globalScope m.store = .ok v store ∧ m' = { m with store }

/-- Calls in a row, each from the machine that the one before left. -/
inductive InPhases (rounds : Nat) : Machine → List Text → List Shown → Machine → Prop
  | nil {m : Machine} : InPhases rounds m [] [] m
  | cons {text : Text} {texts : List Text} {m between m' : Machine} {seen : Shown}
      {shows : List Shown} : Phased rounds text m seen between →
      InPhases rounds between texts shows m' →
      InPhases rounds m (text :: texts) (seen :: shows) m'

theorem Reading.grammar_of {tokens : List Token} {parsed : Parsed} {complaints : List Complaint} :
    ∀ r ∈ (Reading.of tokens parsed complaints).reports, r.kind = .grammar :=
  List.forall_mem_map.2 fun _ _ => rfl

theorem Machine.evaluate_eq_ok_iff {e : Expr} {m m' : Machine} {v : Value} :
    evaluate e m = .ok v m' ↔
      ∃ store, e.eval globalScope m.store = .ok v store ∧ m' = { m with store } := by
  rw [evaluate]
  cases e.eval globalScope m.store with
  | ok w store => simp [and_assoc, eq_comm]
  | error stop store => simp

theorem Machine.answer_eq_value_iff {rounds : Nat} {parsed : Parsed} {m m' : Machine} {v : Value} :
    m.answer rounds parsed.query = .ok (.value v) m' ↔
      ∃ e, parsed = .expression e ∧ evaluate e m = .ok v m' := by
  cases parsed with
  | program entries =>
    simp only [Parsed.query, Machine.answer, reduceCtorEq, false_and, exists_false, iff_false]
    cases run rounds entries m with
    | ok _ _ => simp [settled]
    | error stop _ => cases stop <;> simp [settled]
  | expression e =>
    simp only [Parsed.query, Machine.answer, Parsed.expression.injEq, exists_eq_left']
    cases evaluate e m with
    | ok _ _ => simp [settled]
    | error stop _ => cases stop <;> simp [settled]

namespace Session

theorem Text.reading_grammatical (text : Text) : ∀ r ∈ text.reading.reports, r.kind = .grammar := by
  cases text with
  | program source => exact Reading.grammar_of
  | line source =>
    rw [reading, parseLine]
    split <;> exact Reading.grammar_of

theorem Text.line_of_expression {text : Text} {e : Expr}
    (lone : text.reading.parsed = .expression e) : ∃ source, text = .line source := by
  cases text with
  | program source => nomatch lone
  | line source => exact ⟨source, rfl⟩

theorem reports_reply (reports : Reports) (parsed : Parsed) (answer : Answer) :
    (reply reports parsed answer).reports =
      reports ++ answer.failure?.toList.map Report.runtime := by
  cases answer <;> simp [reply, Answer.failure?]

theorem echo_reply (reports : Reports) (parsed : Parsed) (answer : Answer) (v : Value) :
    (reply reports parsed answer).echo = some v ↔
      (reply reports parsed answer).reports = [] ∧ answer = .value v := by
  cases answer <;> simp [reply, List.isEmpty_iff, and_comm]

theorem phased_take {rounds : Nat} {text : Text} {m m' : Machine} {given : Reply}
    (ends : take rounds text m = .ok given m') : Phased rounds text m given.shown m' := by
  obtain ⟨answer, result, rfl⟩ := exists_answer ends
  have same {other : Answer} :
      m.answer rounds text.reading.parsed.query = .ok other m' ↔ answer = other := by
    simp [result]
  refine ⟨⟨_, ends, rfl⟩, fun r => Scan.reports_lexical, text.reading_grammatical,
    ⟨answer.failure?, reports_reply .., fun f => ?_, fun f => f.fault.atRuntime_kind⟩, fun v => ?_⟩
  · rw [same, Answer.failure?_eq_some]
  · refine (echo_reply ..).trans (and_congr_right fun _ => ?_)
    rw [← same, Machine.answer_eq_value_iff]
    simp only [Machine.evaluate_eq_ok_iff]
    constructor
    · rintro ⟨e, lone, value⟩
      obtain ⟨source, line⟩ := Text.line_of_expression lone
      exact ⟨source, e, line, lone, value⟩
    · rintro ⟨-, e, -, lone, value⟩
      exact ⟨e, lone, value⟩

theorem inPhases_of_takeAll {rounds : Nat} {texts : List Text} {s s' : State} {shows : List Shown}
    (ends : State.takeAll rounds texts s = .ok shows s') :
    InPhases rounds s.machine texts shows s'.machine := by
  induction texts generalizing s shows with
  | nil =>
    obtain ⟨rfl, rfl⟩ := EStateM.Result.ok.inj ends
    exact .nil
  | cons text texts ih =>
    obtain ⟨echo, between, rest, one, others, rfl⟩ := State.takeAll_cons_iff.1 ends
    obtain ⟨given, taken, same⟩ := State.take_eq_ok_iff.1 one
    exact .cons (same ▸ phased_take taken) (ih others)

theorem takeAll_of_inPhases {rounds : Nat} {texts : List Text} {m m' : Machine} {shows : List Shown}
    (phases : InPhases rounds m texts shows m') (reports : Reports) :
    ∃ reports', State.takeAll rounds texts ⟨m, reports⟩ = .ok shows ⟨m', reports'⟩ := by
  induction phases generalizing reports with
  | nil => exact ⟨reports, rfl⟩
  | @cons _ _ _ between _ _ _ first _ ih =>
    obtain ⟨given, taken, rfl⟩ := first.agrees
    obtain ⟨reports', others⟩ := ih given.reports
    have one : State.take rounds _ ⟨_, reports⟩ = .ok given.echo ⟨between, given.reports⟩ :=
      State.take_eq_ok_iff.2 ⟨given, taken, rfl⟩
    exact ⟨reports', State.takeAll_cons_iff.2 ⟨_, _, _, one, others, rfl⟩⟩

/-- Calls that share one list of reports, whatever is on it at first, are those of a session one after
another, and each ends with its own list in phases. -/
theorem calls_in_phases (rounds : Nat) (texts : List Text) (m : Machine) (reports : Reports)
    (shows : List Shown) (m' : Machine) :
    (∃ reports', State.takeAll rounds texts ⟨m, reports⟩ = .ok shows ⟨m', reports'⟩) ↔
      InPhases rounds m texts shows m' :=
  ⟨fun ⟨_, ends⟩ => inPhases_of_takeAll ends, fun phases => takeAll_of_inPhases phases reports⟩

/-- All three phases have something to report; neither call keeps what was on the list before. -/
example :
    (match State.takeAll 1 [.program "print ; # y;", .line "nil"]
        ⟨.start .unlimited, [.lexical .start .unterminatedString]⟩ with
      | .ok shows _ => shows.map Shown.reports
      | .error _ _ => []) =
      [[⟨.lexical, .source, ⟨1, 9⟩, "Unexpected character."⟩,
          ⟨.grammar, .lexeme ";", ⟨1, 7⟩, "Expect expression."⟩,
          ⟨.undefinedVariable, .lexeme "y", ⟨1, 11⟩, "Undefined variable 'y'."⟩],
        []] := by
  decide +kernel

end Session

end Scriptlet
