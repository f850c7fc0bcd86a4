import Scriptlet.Session
import Scriptlet.Proofs.Exits
import Scriptlet.Proofs.Likeness
import Scriptlet.Proofs.CursorProgram
import Scriptlet.Proofs.Scans

/-! Nothing goes wrong inside. Whatever the tokens are, the trees that are read from them are
proper, and so no text given to a session makes the evaluator meet an operator without a meaning. -/
namespace Scriptlet

section Trees

variable {R : Token → Token → Prop}

theorem Expr.Like.proper {e d : Expr} (like : e.Like R d) : e.proper := by
  induction like with
  | literal | var => rfl
  | assign _ _ ih | group _ ih => exact ih
  | unary _ kind _ ih | step _ kind _ ih => simp [Expr.proper, kind, ih]
  | binary _ kind _ _ ihl ihr | logical _ kind _ _ ihl ihr => simp [Expr.proper, kind, ihl, ihr]
  | choice _ _ _ ihc iht ihe => simp [Expr.proper, ihc, iht, ihe]

namespace Stmt

mutual

theorem Like.proper {s s' : Stmt} : Like R s s' → s.proper
  | .expr like => like.proper
  | .print _ like => like.proper
  | .declareNil _ => rfl
  | .declare _ like => like.proper
  | .block body => body.proper
  | .branch condition consequent alternate => by
    simp [Stmt.proper, condition.proper, consequent.proper, alternate.proper]
  | .loop condition body => by simp [Stmt.proper, condition.proper, body.proper]
  | .leave _ => rfl

theorem AllLike.proper {xs ys : List Stmt} : AllLike R xs ys → allProper xs
  | .nil => rfl
  | .cons first rest => by simp [allProper, first.proper, rest.proper]

end

end Stmt

end Trees

def Parsed.proper : Parsed → Bool
  | .program entries => Stmt.allProper (entries.filterMap id)
  | .expression e => e.proper

theorem likeness_eq : Likeness Eq where
  kind same := by rw [same]
  lexeme same := by rw [same]
  literal same := by rw [same]
  compound same first second := by
    subst same
    exact Option.some.inj (first.symm.trans second)

/-- Every operator that is read stands where it has a meaning, whatever the tokens are. -/
theorem parse_proper (tokens : List Token) : (parse tokens).parsed.proper := by
  have step := Parser.alike_program likeness_eq (Reading.content tokens) _ (List.forall₂_refl _)
  obtain ⟨found, rest, complaints, read⟩ :=
    Parser.unfailing_program.exists_read (Reading.content tokens)
  have value := step.value
  rw [read] at value
  rw [parse, read]
  cases value with
  | some like => exact (Stmt.AllLike.filterMap like).proper

theorem wholeExpression?_eq_some {tokens : List Token} {e : Expr} {complaints : List Complaint}
    (whole : wholeExpression? tokens = some (e, complaints)) :
    Parser.bareExpression (Reading.content tokens) = ⟨some e, [], complaints⟩ := by
  rw [wholeExpression?] at whole
  split at whole
  · cases whole
  · split at whole
    · rename_i read
      obtain ⟨rfl, rfl⟩ := Prod.mk.inj (Option.some.inj whole)
      exact read
    · cases whole

theorem parseLine_proper (tokens : List Token) : (parseLine tokens).parsed.proper := by
  rw [parseLine]
  split
  · rename_i e complaints whole
    have value := ((Parser.alike_within likeness_eq (nestingLimit - 1)).expression
      (Reading.content tokens) _ (List.forall₂_refl _)).value
    have read := wholeExpression?_eq_some whole
    rw [Parser.bareExpression] at read
    rw [read] at value
    cases value with
    | some like => exact like.proper
  · exact parse_proper tokens

namespace Session

theorem perform_avoids (rounds : Nat) (reports : Reports) {parsed : Parsed}
    (proper : parsed.proper) :
    Avoids Stop.IsMalformed (perform rounds reports parsed) := by
  have reporting_avoids {reply : Reply} {call : Call Reply}
      (inside : Avoids Stop.IsMalformed call) :
      Avoids Stop.IsMalformed (reporting reply call) := by
    intro m stop m' ends
    rw [reporting] at ends
    split at ends
    · cases ends
    · exact inside m stop m' ends
  refine reporting_avoids ?_
  cases parsed with
  | program entries =>
    have run : Avoids Stop.IsMalformed (Machine.run rounds entries) :=
      .run (Stmt.execAll_avoids rounds _ proper _)
    exact run.bind fun _ => .pure _
  | expression e =>
    have evaluate : Avoids Stop.IsMalformed (Machine.evaluate e) :=
      .evaluate (e.eval_avoids proper _)
    exact evaluate.bind fun _ => .pure _

/-- A text for a session: a whole program, or a line. -/
inductive Text where
  | program (source : String)
  | line (source : String)

def take (rounds : Nat) : Text → Call Reply
  | .program source => run rounds source
  | .line source => runLine rounds source

def takeAll (rounds : Nat) : List Text → Call (List Reply)
  | [] => return []
  | text :: texts => do
    let reply ← take rounds text
    let replies ← takeAll rounds texts
    return reply :: replies

theorem take_avoids (rounds : Nat) (text : Text) : Avoids Stop.IsMalformed (take rounds text) := by
  cases text with
  | program source => exact perform_avoids rounds _ (parse_proper _)
  | line source => exact perform_avoids rounds _ (parseLine_proper _)

theorem takeAll_avoids (rounds : Nat) (texts : List Text) :
    Avoids Stop.IsMalformed (takeAll rounds texts) := by
  induction texts with
  | nil => exact .pure []
  | cons text texts ih =>
    exact (take_avoids rounds text).bind fun _ => ih.bind fun _ => .pure _

end Session

theorem scan_closed (source : String) :
    (scan source).tokens.getLast?.map Token.kind = some .finish := by
  rw [scan, Scan.tokens_ofChars, List.getLast?_concat]
  rfl

/-- Whatever comes before the last token, if that is a `finish`, reading with an index ends without
a defect and with the trees of the list reader, and these are proper. Every scanned text is closed
so, and no texts given to a session one after another make the evaluator meet an operator without a
meaning. -/
theorem free_of_defects (tokens : List Token)
    (closed : tokens.getLast?.map Token.kind = some .finish) :
    (Settles (Walk.program (.start tokens.toArray)) (parse tokens) ∧ (parse tokens).parsed.proper) ∧
      (Settles (Walk.line (.start tokens.toArray)) (parseLine tokens) ∧
        (parseLine tokens).parsed.proper) ∧
      (∀ source, (scan source).tokens.getLast?.map Token.kind = some .finish) ∧
      ∀ rounds texts m arity kind m',
        Session.takeAll rounds texts m ≠ .error (.malformed arity kind) m' := by
  obtain ⟨tail, ts, rfl, clean⟩ := Tail.exists_of_closed closed
  refine ⟨⟨program_settles clean, parse_proper _⟩, ⟨line_settles clean, parseLine_proper _⟩,
    scan_closed, ?_⟩
  intro rounds texts m arity kind m' ends
  exact Session.takeAll_avoids rounds texts m _ m' ends trivial

def strayTokens : List Token :=
  [⟨.minus, "-", none, ⟨1, 1⟩⟩, ⟨.number, "1", none, ⟨1, 2⟩⟩, .finish ⟨1, 3⟩,
    ⟨.endWord, "end", none, ⟨1, 4⟩⟩, .finish ⟨1, 7⟩]

theorem strayTokens_settle :
    strayTokens.getLast?.map Token.kind = some .finish ∧
      (∃ c, Walk.program (.start strayTokens.toArray) = .value (.program [none]) c) ∧
      ∃ c, Walk.line (.start strayTokens.toArray) = .value (.program [none]) c := by
  have closed : strayTokens.getLast?.map Token.kind = some .finish := rfl
  obtain ⟨⟨⟨c, program, -⟩, -⟩, ⟨⟨c', line, -⟩, -⟩, -⟩ := free_of_defects strayTokens closed
  exact ⟨closed, ⟨c, program⟩, ⟨c', line⟩⟩

end Scriptlet
