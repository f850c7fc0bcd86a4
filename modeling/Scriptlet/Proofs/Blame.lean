import Scriptlet.Proofs.Layout
import Scriptlet.Proofs.Origins
import Scriptlet.Proofs.Replies

/-! What reports point at. A run can fail only at a token of the tree, and at which kind of token tells
why it fails; the tokens of the tree are those of the text that was given last. So every report about
the grammar and about the run is about a token that stands there. -/
namespace Scriptlet

namespace Kind

def computing : List Kind :=
  [.plus, .minus, .star, .slash, .percent, .greater, .greaterEqual, .less, .lessEqual, .plusPlus,
    .minusMinus]

def compounds : List Kind :=
  [.plusEqual, .minusEqual, .starEqual, .slashEqual, .percentEqual]

end Kind

/-- What a token can be to blame for. -/
def Fault.Fits (t : Token) : Fault → Prop
  | .undefined name => t.kind = .name ∧ name = t.lexeme
  | .mismatch _ => t.kind ∈ Kind.computing
  | .zeroDivision => t.kind = .slash
  | .output _ => t.kind = .printWord

/-- A failure that blames a token drawn from the text for what it can be to blame for. -/
structure Failure.Drawn (T : Token → Prop) (f : Failure) : Prop where
  token : f.token.Drawn T
  fits : f.fault.Fits f.token

def Stop.Unfounded (T : Token → Prop) : Stop → Prop
  | .failure f => ¬ f.Drawn T
  | _ => False

def Exit.Unfounded (T : Token → Prop) : Exit → Prop
  | .stop s => s.Unfounded T
  | .left => False

namespace Operator

variable {T : Token → Prop} {operator : Token} {f : Failure}

/-! An operator that fails blames itself. -/

theorem number_drawn (drawn : operator.Drawn T) (kind : operator.kind ∈ Kind.computing) {v : Value}
    (failed : number operator v = .error (.failure f)) : f.Drawn T := by
  unfold number at failed
  split at failed
  · nomatch failed
  · cases failed
    exact ⟨drawn, kind⟩

theorem unary_drawn (drawn : operator.Drawn T) {v : Value}
    (failed : unary operator v = .error (.failure f)) : f.Drawn T := by
  unfold unary at failed
  split at failed
  · rename_i minus
    cases result : number operator v with
    | ok x =>
      rw [result] at failed
      nomatch failed
    | error stop =>
      rw [result] at failed
      obtain rfl : stop = .failure f := Except.error.inj failed
      exact number_drawn drawn (by rw [minus]; decide) result
  · nomatch failed
  · nomatch failed

theorem add_drawn (drawn : operator.Drawn T) (plus : operator.kind = .plus) {v w : Value}
    (failed : add operator v w = .error (.failure f)) : f.Drawn T := by
  have computing : operator.kind ∈ Kind.computing := by
    rw [plus]
    decide
  unfold add at failed
  split at failed
  · nomatch failed
  · nomatch failed
  · cases failed
    exact ⟨drawn, computing⟩

theorem onNumbers_drawn (drawn : operator.Drawn T) {x y : Float}
    (failed : onNumbers operator x y = .error (.failure f)) : f.Drawn T := by
  unfold onNumbers at failed
  split at failed
  case h_3 slash =>
    unfold divide at failed
    split at failed
    · cases failed
      exact ⟨drawn, slash⟩
    · nomatch failed
  all_goals nomatch failed

theorem computing_of_isBinary {k : Kind} (binary : k.isBinary) (equal : k ≠ .equalEqual)
    (unequal : k ≠ .bangEqual) : k ∈ Kind.computing := by
  have member := List.mem_of_ne_of_mem unequal (List.mem_of_ne_of_mem equal (of_decide_eq_true binary))
  exact List.mem_append_left [.plusPlus, .minusMinus] member

theorem binary_drawn (drawn : operator.Drawn T) (kind : operator.kind.isBinary) {v w : Value}
    (failed : binary operator v w = .error (.failure f)) : f.Drawn T := by
  unfold binary at failed
  split at failed
  · nomatch failed
  · nomatch failed
  · rename_i plus
    exact add_drawn drawn plus failed
  · split at failed
    · exact onNumbers_drawn drawn failed
    · cases failed
      exact ⟨drawn, computing_of_isBinary kind ‹_› ‹_›⟩

end Operator

namespace Expr

variable {T : Token → Prop}

theorem ofExcept_founded {α : Type} {r : Except Stop α}
    (drawn : ∀ f, r = .error (.failure f) → f.Drawn T) :
    Avoids (Stop.Unfounded T) (Evaluation.ofExcept r) := by
  cases r with
  | ok a => exact .pure a
  | error stop =>
    refine .throw ?_
    cases stop with
    | failure f => exact not_not_intro (drawn f rfl)
    | malformed _ _ => exact id
    | exhausted => exact id

theorem get_founded (scope : ScopeId) {name : Token} (drawn : T name) (kind : name.kind = .name) :
    Avoids (Stop.Unfounded T) (Evaluation.get scope name) := by
  intro s stop s' ends
  rw [Evaluation.get_apply] at ends
  split at ends
  · nomatch ends
  · obtain ⟨rfl, rfl⟩ := EStateM.Result.error.inj ends
    exact not_not_intro ⟨.plain drawn, kind, rfl⟩

theorem assign_founded (scope : ScopeId) {name : Token} (drawn : T name) (kind : name.kind = .name)
    (v : Value) : Avoids (Stop.Unfounded T) (Evaluation.assign scope name v) := by
  intro s stop s' ends
  rw [Evaluation.assign_apply] at ends
  split at ends
  · nomatch ends
  · obtain ⟨rfl, rfl⟩ := EStateM.Result.error.inj ends
    exact not_not_intro ⟨.plain drawn, kind, rfl⟩

/-- Evaluation fails only at tokens of the tree. -/
theorem eval_founded {e : Expr} (drawn : e.Drawn T) (scope : ScopeId) :
    Avoids (Stop.Unfounded T) (e.eval scope) := by
  induction drawn with
  | literal => exact .pure _
  | var taken kind => exact get_founded scope taken kind
  | assign taken kind _ ih =>
    exact ih.bind fun v => (assign_founded scope taken kind v).bind fun _ => .pure v
  | group _ ih => exact ih
  | unary taken _ _ ih =>
    exact ih.bind fun v => ofExcept_founded fun f => Operator.unary_drawn (.plain taken)
  | binary taken kind _ _ ihLeft ihRight =>
    exact ihLeft.bind fun v => ihRight.bind fun w =>
      ofExcept_founded fun f => Operator.binary_drawn taken kind
  | logical _ _ _ _ ihLeft ihRight =>
    refine ihLeft.bind fun v => ?_
    split
    · exact .pure v
    · exact ihRight
  | choice _ _ _ ihFirst ihSecond ihThird =>
    exact ihFirst.bind fun _ => ihSecond.bind fun _ => ihThird.bind fun _ => .pure _
  | @step operator _ taken kind operand ih =>
    have computing : operator.kind ∈ Kind.computing :=
      (by decide : ∀ k ∈ [Kind.plusPlus, .minusMinus], k ∈ Kind.computing) _ (of_decide_eq_true kind)
    refine ih.bind fun old => Avoids.bind
      (ofExcept_founded fun f => Operator.number_drawn (.plain taken) computing) fun x => ?_
    cases operand with
    | var named kind => exact (assign_founded scope named kind _).bind fun _ => .pure old
    | _ => exact (Avoids.pure ()).bind fun _ => .pure old

end Expr

namespace Stmt

variable {T : Token → Prop}

theorem execAll_founded {rounds : Nat} {body : List Stmt}
    (founded : ∀ s ∈ body, ∀ scope, Avoids (Exit.Unfounded T) (s.exec rounds scope))
    (scope : ScopeId) : Avoids (Exit.Unfounded T) (execAll rounds scope body) := by
  induction body with
  | nil => exact .pure ()
  | cons s rest ih =>
    obtain ⟨first, others⟩ := List.forall_mem_cons.1 founded
    exact (first scope).bind fun _ => ih others

theorem exec_founded (rounds : Nat) {s : Stmt} (drawn : s.Drawn T) (scope : ScopeId) :
    Avoids (Exit.Unfounded T) (s.exec rounds scope) := by
  have eval {e : Expr} (drawn : e.Drawn T) (scope : ScopeId) :
      Avoids (Exit.Unfounded T) (Execution.eval scope e) := .eval (Expr.eval_founded drawn scope)
  induction drawn generalizing scope with
  | expr drawn => exact (eval drawn scope).map _
  | print taken kind drawn =>
    exact (eval drawn scope).bind fun v => .print (not_not_intro ⟨.plain taken, kind⟩) v
  | @declare name initial _ _ drawn =>
    cases initial with
    | none => exact .define scope name .nil
    | some e => exact (eval (drawn e rfl) scope).bind fun v => .define scope name v
  | block _ ih => exact .inScope scope fun inner => execAll_founded ih inner
  | branch condition _ _ ihConsequent ihAlternate =>
    refine (eval condition scope).bind fun v => ?_
    split
    · exact .inScope scope fun inner => execAll_founded ihConsequent inner
    · exact .inScope scope fun inner => execAll_founded ihAlternate inner
  | loop condition _ ih =>
    have round := Avoids.inScope scope fun inner => ih inner
    refine .repeatWhile id (eval condition scope) ?_ rounds
    exact fun m exit m' ends reached => round m exit m' ends reached.2
  | leave _ _ => exact .throw id

end Stmt

namespace Machine

variable {T : Token → Prop} {m m' : Machine} {f : Failure}

theorem eq_failed_of_settled {α : Type} {answer : α → Answer} (other : ∀ a, answer a ≠ .failed f)
    {result : EStateM.Result Stop Machine α} (failed : settled answer result = .ok (.failed f) m') :
    result = .error (.failure f) m' := by
  unfold settled at failed
  split at failed
  · rename_i a _
    exact absurd (EStateM.Result.ok.inj failed).1 (other a)
  · obtain ⟨same, rfl⟩ := EStateM.Result.ok.inj failed
    rw [Answer.failed.inj same]
  · nomatch failed

theorem answer_drawn {rounds : Nat} {parsed : Parsed} (drawn : parsed.Drawn T)
    (failed : m.answer rounds parsed.query = .ok (.failed f) m') : f.Drawn T := by
  cases parsed with
  | program entries =>
    have ends := eq_failed_of_settled nofun failed
    have statements := fun s member => Stmt.exec_founded rounds (drawn s member)
    have founded : Avoids (Stop.Unfounded T) (run rounds entries) :=
      .run (Stmt.execAll_founded statements _)
    exact Classical.not_not.1 (founded _ _ _ ends)
  | expression e =>
    have ends := eq_failed_of_settled nofun failed
    exact Classical.not_not.1 (Avoids.evaluate (Expr.eval_founded drawn _) _ _ _ ends)

end Machine

def ReportKind.culprits : ReportKind → List Kind
  | .undefinedVariable => [.name]
  | .typeMismatch => Kind.computing ++ Kind.compounds
  | .divisionByZero => [.slash, .slashEqual]
  | .output => [.printWord]
  | _ => []

namespace Report

structure StandsAt (r : Report) (t : Token) : Prop where
  pos : r.pos = t.pos
  finish : r.location = .finish ↔ t.kind = .finish
  lexeme : t.kind ≠ .finish → r.location = .lexeme t.lexeme

/-- A report about the run at a token. A compound assignment is named by its operator alone. -/
structure Blames (r : Report) (t : Token) : Prop where
  pos : r.pos = t.pos
  kind : t.kind ∈ r.kind.culprits
  plain : t.kind ∉ Kind.compounds → r.location = .lexeme t.lexeme
  compound : t.kind ∈ Kind.compounds →
    ∃ operator, r.location = .lexeme operator ∧ t.lexeme = operator ++ "="
  message : r.kind = .undefinedVariable →
    r.message = "Undefined variable '" ++ t.lexeme ++ "'."

/-- A report that is at one of these tokens, unless it is about characters. -/
structure Founded (tokens : List Token) (r : Report) : Prop where
  grammar : r.kind = .grammar → ∃ t ∈ tokens, r.StandsAt t
  runtime : r.kind.atRuntime → ∃ t ∈ tokens, r.Blames t

theorem grammar_standsAt (t : Token) (message : String) : (grammar t message).StandsAt t := by
  refine ⟨rfl, ?_, fun other => if_neg other⟩
  by_cases finish : t.kind = .finish <;> simp [grammar, finish]

end Report

namespace Token

theorem Spelled.operator {t : Token} (spelled : t.Spelled)
    (mark : t.kind ∈ Lexical.operators.map Prod.snd) : (t.lexeme, t.kind) ∈ Lexical.operators := by
  have apart : ∀ entry ∈ Kind.reserved, entry.2 ∉ Lexical.operators.map Prod.snd := by decide
  obtain ⟨text, rest, spelling, lexeme⟩ := spelled
  generalize t.kind = kind, t.literal = literal at lexeme mark
  rw [spelling]
  cases lexeme with
  | operator member => exact member
  | reserved member => exact absurd mark (apart _ member)
  | name => exact absurd mark (by decide)
  | whole => exact absurd mark (by decide)
  | decimal => exact absurd mark (by decide)
  | string => exact absurd mark (by decide)

theorem Spelled.compound {t x : Token} (spelled : t.Spelled) (made : Expr.compound? t = some x) :
    t.lexeme = x.lexeme ++ "=" := by
  unfold Expr.compound? at made
  split at made
  case h_6 => nomatch made
  all_goals
    rename_i kind
    obtain rfl := Option.some.inj made
    simpa [Lexical.operators, kind] using spelled.operator (by rw [kind]; decide)

theorem kind_of_compound {t x : Token} (made : Expr.compound? t = some x) :
    t.kind ∈ Kind.compounds ∧ x.kind ∈ Kind.computing ∧ x.pos = t.pos ∧
      (x.kind = .slash → t.kind = .slashEqual) := by
  unfold Expr.compound? at made
  split at made
  case h_6 => nomatch made
  all_goals
    rename_i kind
    obtain rfl := Option.some.inj made
    simp [kind, Kind.compounds, Kind.computing]

end Token

namespace Fault

variable {fault : Fault} {t x : Token}

theorem Fits.culprit (fits : fault.Fits t) :
    t.kind ∈ fault.kind.culprits ∧ t.kind ∉ Kind.compounds := by
  cases fault with
  | undefined name =>
    rw [fits.1, Fault.kind]
    decide
  | mismatch rule =>
    have apart : ∀ k ∈ Kind.computing, k ∉ Kind.compounds := by decide
    exact ⟨List.mem_append_left _ fits, apart _ fits⟩
  | zeroDivision =>
    rw [show t.kind = .slash from fits]
    decide
  | output reason =>
    rw [show t.kind = .printWord from fits, Fault.kind]
    decide

theorem Fits.compound (fits : fault.Fits x) (made : Expr.compound? t = some x) :
    t.kind ∈ fault.kind.culprits ∧ fault.kind ≠ .undefinedVariable := by
  obtain ⟨compound, computing, -, slash⟩ := Token.kind_of_compound made
  cases fault with
  | undefined name =>
    rw [fits.1] at computing
    exact absurd computing (by decide)
  | mismatch rule => exact ⟨List.mem_append_right _ compound, nofun⟩
  | zeroDivision =>
    rw [slash fits]
    decide
  | output reason =>
    rw [show x.kind = .printWord from fits] at computing
    exact absurd computing (by decide)

end Fault

theorem Failure.Drawn.founded {tokens : List Token} {f : Failure} (drawn : f.Drawn (· ∈ tokens))
    (spelled : ∀ t ∈ tokens, t.kind ∈ Kind.compounds → t.Spelled) :
    ∃ t ∈ tokens, (Report.runtime f).Blames t := by
  obtain ⟨token, fits⟩ := drawn
  cases token with
  | plain member =>
    obtain ⟨culprit, apart⟩ := fits.culprit
    refine ⟨f.token, member, rfl, culprit, fun _ => rfl, fun compound => absurd compound apart, ?_⟩
    intro undefined
    obtain ⟨token, fault⟩ := f
    cases fault with
    | undefined name => rw [← fits.2]; rfl
    | _ => nomatch undefined
  | @compound t _ member made =>
    -- the blamed token is not in the text, but the assignment it was made from is, at the same place
    obtain ⟨culprit, other⟩ := fits.compound made
    obtain ⟨compound, -, pos, -⟩ := Token.kind_of_compound made
    refine ⟨t, member, pos, culprit, fun plain => absurd compound plain, fun _ => ?_, ?_⟩
    · exact ⟨f.token.lexeme, rfl, (spelled t member compound).compound made⟩
    · exact fun undefined => absurd undefined other

theorem Scan.spelled_of_compound {source : String} {t : Token} (member : t ∈ (scan source).tokens)
    (compound : t.kind ∈ Kind.compounds) : t.Spelled := by
  rw [scan, tokens_ofChars] at member
  obtain word | last := List.mem_append.1 member
  · exact words_spelled _ t word
  · rw [List.mem_singleton.1 last] at compound
    simp [Token.finish, Kind.compounds] at compound

namespace Session

theorem Text.reading_drawn (text : Text) : text.reading.Drawn (scan text.source).tokens := by
  cases text with
  | program source => exact parse_drawn (scan_closed source)
  | line source => exact parseLine_drawn (scan_closed source)

theorem Text.reports_founded (text : Text) :
    ∀ r ∈ text.reports, r.Founded (scan text.source).tokens := by
  intro r member
  obtain lexical | grammatical := List.mem_append.1 member
  · have kind := Scan.reports_lexical lexical
    exact ⟨by simp [kind], by simp [kind, ReportKind.atRuntime]⟩
  · obtain ⟨t, within, message, rfl⟩ := text.reading_drawn.reports r grammatical
    exact ⟨fun _ => ⟨t, within, Report.grammar_standsAt t message⟩,
      by simp [Report.grammar, ReportKind.atRuntime]⟩

theorem take_founded {rounds : Nat} {text : Text} {m m' : Machine} {given : Reply}
    (ends : take rounds text m = .ok given m') :
    ∀ r ∈ given.reports, r.Founded (scan text.source).tokens := by
  obtain ⟨answer, result, rfl⟩ := exists_answer ends
  cases answer with
  | value v => exact text.reports_founded
  | done => exact text.reports_founded
  | failed f =>
    refine List.forall_mem_append.2 ⟨text.reports_founded, List.forall_mem_singleton.2 ?_⟩
    have drawn := Machine.answer_drawn text.reading_drawn.parsed result
    refine ⟨fun grammar => ?_, fun _ => drawn.founded fun t => Scan.spelled_of_compound⟩
    have runtime := f.fault.atRuntime_kind
    rw [show f.fault.kind = .grammar from grammar] at runtime
    nomatch runtime

/-- Texts one after another, from any machine: every report about the grammar stands at a token of the
text that was given with it, at the end if that is its closing token and else with its lexeme; and
every report about the run blames a token of that text which can be to blame. -/
theorem reports_at_tokens (rounds : Nat) (texts : List Text) (m : Machine) (replies : List Reply)
    (m' : Machine) (ends : takeAll rounds texts m = .ok replies m') :
    List.Forall₂ (fun text given => ∀ r ∈ given.reports, r.Founded (scan text.source).tokens)
      texts replies := by
  induction texts generalizing m replies with
  | nil =>
    obtain ⟨rfl, rfl⟩ := EStateM.Result.ok.inj ends
    exact .nil
  | cons text texts ih =>
    obtain ⟨first, rest, between, rfl, one, others⟩ := takeAll_cons_ends ends
    exact .cons (take_founded one) (ih between rest others)

def blameSample : List Text :=
  [.program "let a = true;\nprint ;\na -= nil;", .line "1 + -a"]

theorem blameSample_at_tokens :
    ∃ replies m', takeAll 1 blameSample (.start .unlimited) = .ok replies m' ∧
      replies.map Reply.reports =
        [[⟨.grammar, .lexeme ";", ⟨2, 7⟩, "Expect expression."⟩,
          ⟨.typeMismatch, .lexeme "-", ⟨3, 3⟩, "Operands must be numbers."⟩],
          [⟨.typeMismatch, .lexeme "-", ⟨1, 5⟩, "Operand must be a number."⟩]] ∧
      List.Forall₂ (fun text given => ∀ r ∈ given.reports, r.Founded (scan text.source).tokens)
        blameSample replies := by
  obtain ⟨replies, m', ends, shown⟩ := @exists_replies 1 blameSample (.start .unlimited)
    [[⟨.grammar, .lexeme ";", ⟨2, 7⟩, "Expect expression."⟩,
      ⟨.typeMismatch, .lexeme "-", ⟨3, 3⟩, "Operands must be numbers."⟩],
      [⟨.typeMismatch, .lexeme "-", ⟨1, 5⟩, "Operand must be a number."⟩]] (by decide +kernel)
  exact ⟨replies, m', ends, shown, reports_at_tokens 1 blameSample _ replies m' ends⟩

end Session

end Scriptlet
