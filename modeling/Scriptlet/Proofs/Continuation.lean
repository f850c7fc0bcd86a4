import Scriptlet.Session
import Scriptlet.Proofs.Exits
import Scriptlet.Proofs.GrammarStmt
import Scriptlet.Proofs.LikeRuns
import Scriptlet.Proofs.Rounds
import Scriptlet.Proofs.Scans

/-! A program may be cut after a line that ends a statement and given to a session in two texts. The
tokens after the seam are the same further down, reading goes on after a whole program as if it
began there, and running goes on from the machine that the first part left. -/
namespace Scriptlet

namespace Stmt

theorem anyLeaves_append (xs ys : List Stmt) :
    anyLeaves (xs ++ ys) = (anyLeaves xs || anyLeaves ys) := by
  induction xs with
  | nil => rfl
  | cons s xs ih => simp only [List.cons_append, anyLeaves, ih, Bool.or_assoc]

theorem execAll_append (rounds : Nat) (scope : ScopeId) (xs ys : List Stmt) {m m' : Machine}
    (first : execAll rounds scope xs m = .ok () m') :
    execAll rounds scope (xs ++ ys) m = execAll rounds scope ys m' := by
  induction xs generalizing m with
  | nil =>
    obtain ⟨-, rfl⟩ := EStateM.Result.ok.inj first
    rfl
  | cons s xs ih =>
    rw [execAll] at first
    rw [List.cons_append, execAll]
    cases result : s.exec rounds scope m with
    | error exit m'' =>
      rw [bind_of_error result] at first
      cases first
    | ok _ m'' =>
      rw [bind_of_ok result] at first ⊢
      exact ih first

end Stmt

namespace Grammar

theorem Variable.stays {n : Nat} {ts : List Token} {s : Stmt} (derived : Variable n ts s) :
    s.leaves = false := by
  cases derived <;> rfl

theorem Initial.stays {n : Nat} {ts : List Token} {s : Option Stmt} (derived : Initial n ts s) :
    Stmt.anyLeaves s.toList = false := by
  cases derived with
  | none => rfl
  | declare derived => simp [Stmt.anyLeaves, derived.stays]
  | expr => rfl

mutual

/-- Outside of loops the grammar has no break. -/
theorem Statement.stays {n : Nat} {ts : List Token} {s : Stmt} :
    Statement n false ts s → s.leaves = false
  | .expr _ _ => rfl
  | .print _ _ _ => rfl
  | .block _ body _ => body.stays
  | .branch _ _ _ consequent _ => by simp [Stmt.leaves, consequent.stays, Stmt.anyLeaves]
  | .branchElse _ _ _ consequent _ alternate _ => by
    simp [Stmt.leaves, consequent.stays, alternate.stays]
  | .loop _ _ _ _ => rfl
  | .counting _ _ initial _ _ _ _ => by
    simp [Stmt.leaves, Stmt.anyLeaves_append, initial.stays, Stmt.anyLeaves]
  | .countingBy _ _ initial _ _ _ _ _ => by
    simp [Stmt.leaves, Stmt.anyLeaves_append, initial.stays, Stmt.anyLeaves]

theorem Body.stays {n : Nat} {ts : List Token} {body : List Stmt} :
    Body n false ts body → Stmt.anyLeaves body = false
  | .nil => rfl
  | .declare first rest => by simp [Stmt.anyLeaves, first.stays, rest.stays]
  | .cons first rest => by simp [Stmt.anyLeaves, first.stays, rest.stays]

end

end Grammar

def Below (k : Nat) (t u : Token) : Prop :=
  u = t.down k

theorem likeness_below (k : Nat) : Likeness (Below k) where
  kind related := by rw [related]; rfl
  lexeme related := by rw [related]; rfl
  literal related := by rw [related]; rfl
  compound := by
    rintro t - x y rfl first second
    have moved : Expr.compound? (t.down k) = (Expr.compound? t).map (·.down k) := by
      obtain ⟨kind, lexeme, literal, pos⟩ := t
      cases kind <;> rfl
    rw [moved, first] at second
    exact (Option.some.inj second).symm

theorem Report.runtime_down {k : Nat} {f g : Failure} (below : Below k f.token g.token)
    (same : f.fault = g.fault) : Report.runtime g = (Report.runtime f).down k := by
  have token : g.token = f.token.down k := below
  simp only [Report.runtime, Failure.message, token, same]
  rfl

theorem Complaint.report_down {k : Nat} {c d : Complaint} (like : c.Like (Below k) d)
    (finish : Token) :
    d.report (finish.down k) = (c.report finish).down k := by
  obtain ⟨token, mistake⟩ := like
  simp only [Complaint.report, mistake]
  generalize c.token? = x, d.token? = y at token
  cases token with
  | none => rfl
  | some below => rw [below]; rfl

theorem Complaint.reports_down {k : Nat} {cs ds : List Complaint}
    (like : List.Forall₂ (Complaint.Like (Below k)) cs ds) (finish : Token) :
    ds.map (·.report (finish.down k)) = (cs.map (·.report finish)).map (·.down k) := by
  induction like with
  | nil => rfl
  | cons first _ ih => rw [List.map_cons, List.map_cons, List.map_cons, report_down first, ih]

namespace Session

theorem perform_program (rounds : Nat) (reports : Reports) (entries : List (Option Stmt))
    (m : Machine) :
    perform rounds reports (.program entries) m =
      match Stmt.execAll rounds Machine.globalScope (entries.filterMap id) m with
      | .ok _ m' => .ok ⟨.program entries, reports, none⟩ m'
      | .error .left m' => .ok ⟨.program entries, reports, none⟩ m'
      | .error (.stop (.failure f)) m' => .ok ⟨.program entries, reports ++ [.runtime f], none⟩ m'
      | .error (.stop stop) m' => .error stop m' := by
  have unfolded : perform rounds reports (.program entries) m =
      reporting ⟨.program entries, reports, none⟩
        (Machine.run rounds entries >>= fun _ => pure ⟨.program entries, reports, none⟩) m := rfl
  rw [unfolded, reporting]
  cases result : Stmt.execAll rounds Machine.globalScope (entries.filterMap id) m with
  | ok _ m' =>
    have run : Machine.run rounds entries m = .ok () m' := by rw [Machine.run, result]
    rw [bind_of_ok run]
    rfl
  | error exit m' =>
    cases exit with
    | left =>
      have run : Machine.run rounds entries m = .ok () m' := by rw [Machine.run, result]
      rw [bind_of_ok run]
      rfl
    | stop stop =>
      have run : Machine.run rounds entries m = .error stop m' := by rw [Machine.run, result]
      rw [bind_of_error run]
      cases stop <;> rfl

theorem perform_ends {rounds : Nat} {reports : Reports} {entries : List (Option Stmt)}
    {m m' : Machine} {reply : Reply}
    (ends : perform rounds reports (.program entries) m = .ok reply m') :
    reply.parsed = .program entries ∧ reports ⊆ reply.reports ∧
      (Stmt.execAll rounds Machine.globalScope (entries.filterMap id) m = .ok () m' ∨
        Stmt.execAll rounds Machine.globalScope (entries.filterMap id) m = .error .left m' ∨
        ∃ f, Stmt.execAll rounds Machine.globalScope (entries.filterMap id) m =
          .error (.stop (.failure f)) m' ∧ .runtime f ∈ reply.reports) := by
  rw [perform_program] at ends
  split at ends
  · rename_i result
    obtain ⟨rfl, rfl⟩ := EStateM.Result.ok.inj ends
    exact ⟨rfl, List.Subset.refl _, .inl result⟩
  · rename_i result
    obtain ⟨rfl, rfl⟩ := EStateM.Result.ok.inj ends
    exact ⟨rfl, List.Subset.refl _, .inr (.inl result)⟩
  · rename_i f _ result
    obtain ⟨rfl, rfl⟩ := EStateM.Result.ok.inj ends
    exact ⟨rfl, List.subset_append_left _ _, .inr (.inr ⟨f, result, by simp⟩)⟩
  · nomatch ends

/-- Calls that end in the same machine, with the reports of one further down; or neither ends. -/
inductive Lowered (k : Nat) : EStateM.Result Stop Machine Reply →
    EStateM.Result Stop Machine Reply → Prop
  | ok {reply reply' : Reply} {m : Machine} : reply'.reports = reply.reports.map (·.down k) →
      Lowered k (.ok reply m) (.ok reply' m)
  | error {s t : Stop} {m m' : Machine} : Lowered k (.error s m) (.error t m')

theorem perform_below {k rounds : Nat} {reports : Reports} {entries entries' : List (Option Stmt)}
    {m m' : Machine}
    (ends : SameEnd (Exit.Like (Below k))
      (Stmt.execAll rounds Machine.globalScope (entries.filterMap id) m)
      (Stmt.execAll rounds Machine.globalScope (entries'.filterMap id) m')) :
    Lowered k (perform rounds reports (.program entries) m)
      (perform rounds (reports.map (·.down k)) (.program entries') m') := by
  rw [perform_program, perform_program]
  generalize Stmt.execAll rounds Machine.globalScope (entries.filterMap id) m = r,
    Stmt.execAll rounds Machine.globalScope (entries'.filterMap id) m' = q at ends
  cases ends with
  | ok => exact .ok rfl
  | error like =>
    cases like with
    | left => exact .ok rfl
    | stop like =>
      cases like with
      | failure below same => exact .ok (by simp [Report.runtime_down below same])
      | malformed => exact .error
      | exhausted => exact .error

theorem run_more {rounds rounds' : Nat} (more : rounds ≤ rounds') {source : String} {m m' : Machine}
    {reply : Reply} (ends : run rounds source m = .ok reply m') :
    run rounds' source m = .ok reply m' := by
  unfold run at ends ⊢
  simp only [parse, Reading.of, perform_program] at ends ⊢
  obtain ⟨m'', out⟩ | same := Stmt.execAll_outlasts more _ Machine.globalScope m
  · rw [out] at ends
    cases ends
  · rw [same]
    exact ends

theorem run_eq (rounds : Nat) (source : String) :
    run rounds source =
      perform rounds
        ((scan source).reports ++ (Parser.program (Scan.words source.toList)).complaints.map
          (·.report (.finish (Position.start.after source.toList))))
        (.program ((Parser.program (Scan.words source.toList)).value.getD [])) := by
  simp only [run, scan, parse, Reading.of, Scan.content_ofChars, Scan.closing_ofChars]

theorem derived_of_clean {rounds : Nat} {source : String} {m m' : Machine} {reply : Reply}
    (ends : run rounds source m = .ok reply m') (silent : reply.reports = []) :
    (scan source).reports = [] ∧ ∃ trees, Grammar.Program (Scan.words source.toList) trees ∧
      Stmt.execAll rounds Machine.globalScope trees m = .ok () m' := by
  rw [run_eq] at ends
  obtain ⟨-, kept, outcome⟩ := perform_ends ends
  rw [silent] at kept outcome
  obtain ⟨lexical, grammatical⟩ := List.append_eq_nil_iff.1 (List.subset_nil.1 kept)
  obtain ⟨trees, derived, read⟩ :=
    Grammar.derived_of_silent (List.map_eq_nil_iff.1 grammatical)
  rw [Parser.Reads] at read
  have all : ((trees.map some).filterMap id) = trees := by simp
  simp only [read, Option.getD_some, all] at outcome
  refine ⟨lexical, trees, derived, ?_⟩
  obtain ended | left | ⟨f, -, reported⟩ := outcome
  · exact ended
  · exact absurd rfl (Stmt.execAll_stays rounds trees derived.stays _ m _ _ left)
  · simp at reported

theorem run_seam {rounds : Nat} {a : String} {m m₁ : Machine} {reply : Reply}
    (ends : run rounds a m = .ok reply m₁) (silent : reply.reports = [])
    (outside : Piece.endsInComment a.toList = false) (b : String) :
    Lowered (1 + a.toList.count '\n') (run rounds b m₁) (run rounds (a ++ "\n" ++ b) m) := by
  obtain ⟨lexical, trees, derived, ran⟩ := derived_of_clean ends silent
  obtain ⟨words, reports⟩ := Scan.ofChars_seam lexical outside b.toList
  have text : (a ++ "\n" ++ b).toList = a.toList ++ '\n' :: b.toList := by simp
  have finish : Token.finish (Position.start.after (a ++ "\n" ++ b).toList) =
      (Token.finish (Position.start.after b.toList)).down (1 + a.toList.count '\n') := by
    rw [text, Scan.after_seam]
    rfl
  generalize 1 + a.toList.count '\n' = k at words reports finish ⊢
  have below : List.Forall₂ (Below k) (Scan.words b.toList)
      ((Scan.words b.toList).map (·.down k)) := by
    rw [List.forall₂_map_right_iff]
    exact List.forall₂_same.2 fun _ _ => rfl
  have like := Parser.alike_program (likeness_below k) _ _ below
  have whole : Parser.program (Scan.words (a ++ "\n" ++ b).toList) =
      ((trees.map some ++ ·) <$> Parser.program) ((Scan.words b.toList).map (·.down k)) := by
    rw [text, words, Grammar.program_append derived]
  have scanned : (scan (a ++ "\n" ++ b)).reports = (scan b).reports.map (·.down k) := by
    rw [scan, text, reports]
    rfl
  rw [run_eq, run_eq, whole, Parser.map_apply, finish, scanned]
  have given : (Parser.program (Scan.words b.toList)).value.isSome := Parser.unfailing_program _
  generalize Parser.program (Scan.words b.toList) = step,
    Parser.program ((Scan.words b.toList).map (·.down k)) = lower at like given
  obtain ⟨value, -, complaints⟩ := like
  rw [Complaint.reports_down complaints, ← List.map_append]
  refine perform_below ?_
  generalize step.value = x, lower.value = y at value given
  cases value with
  | none => simp at given
  | @some entries entries' like =>
    have after : ((trees.map some ++ entries').filterMap id) = trees ++ entries'.filterMap id := by
      simp
    simp only [Option.map_some, Option.getD_some, after]
    rw [Stmt.execAll_append rounds _ trees _ ran]
    exact Stmt.execAll_like (likeness_below k) rounds (.filterMap like) _ m₁

/-- The run of a text ends, with these reports and this machine. -/
def Gives (source : String) (m : Machine) (reports : Reports) (m' : Machine) : Prop :=
  ∃ rounds reply, run rounds source m = .ok reply m' ∧ reply.reports = reports

/-- If a text runs without a report and leaves no comment open, another text after it does what it
does in a call of its own: the two calls and the one call on both texts end in the same machine,
with the same output and variables, and the reports of the one are those of the last call further
down. -/
theorem gives_seam_iff {a : String} {m m₁ : Machine} (first : Gives a m [] m₁)
    (outside : Piece.endsInComment a.toList = false) (b : String) (reports : Reports)
    (m₂ : Machine) :
    Gives (a ++ "\n" ++ b) m reports m₂ ↔
      ∃ after, reports = after.map (·.down (1 + a.toList.count '\n')) ∧ Gives b m₁ after m₂ := by
  obtain ⟨rounds₁, reply₁, ends, silent⟩ := first
  -- one number of rounds that is enough for both calls
  have lowered (rounds : Nat) :=
    run_seam (run_more (Nat.le_max_left rounds₁ rounds) ends) silent outside b
  constructor
  · rintro ⟨rounds, reply, result, rfl⟩
    have both := lowered rounds
    rw [run_more (Nat.le_max_right rounds₁ rounds) result] at both
    generalize last : run (max rounds₁ rounds) b m₁ = r at both
    cases both with
    | ok same => exact ⟨_, same, _, _, last, rfl⟩
  · rintro ⟨after, rfl, rounds, reply, result, rfl⟩
    have both := lowered rounds
    rw [run_more (Nat.le_max_right rounds₁ rounds) result] at both
    generalize last : run (max rounds₁ rounds) (a ++ "\n" ++ b) m = r at both
    cases both with
    | ok same => exact ⟨_, _, last, same⟩

theorem exists_gives (rounds : Nat) {source : String} {m : Machine} {reports : Reports}
    (shown : (match run rounds source m with
      | .ok reply _ => some reply.reports
      | .error _ _ => none) = some reports) : ∃ m', Gives source m reports m' := by
  cases result : run rounds source m with
  | error stop m' =>
    rw [result] at shown
    nomatch shown
  | ok reply m' =>
    rw [result] at shown
    exact ⟨m', rounds, reply, result, Option.some.inj shown⟩

theorem gives_after_comment :
    ∃ m₁ m₂ after, Gives "let x = true; // on" (.start .unlimited) [] m₁ ∧
      Piece.endsInComment "let x = true; // on".toList = false ∧
      Gives "print ;\ny;" m₁ after m₂ ∧
      after.map (·.down 1) =
        [⟨.grammar, .lexeme ";", ⟨2, 7⟩, "Expect expression."⟩,
          ⟨.undefinedVariable, .lexeme "y", ⟨3, 1⟩, "Undefined variable 'y'."⟩] := by
  obtain ⟨m₁, first⟩ : ∃ m₁, Gives "let x = true; // on" (.start .unlimited) [] m₁ :=
    exists_gives 1 (by decide +kernel)
  have outside : Piece.endsInComment "let x = true; // on".toList = false := by decide +kernel
  obtain ⟨m₂, both⟩ : ∃ m₂, Gives ("let x = true; // on" ++ "\n" ++ "print ;\ny;")
      (.start .unlimited)
      [⟨.grammar, .lexeme ";", ⟨2, 7⟩, "Expect expression."⟩,
        ⟨.undefinedVariable, .lexeme "y", ⟨3, 1⟩, "Undefined variable 'y'."⟩] m₂ :=
    exists_gives 1 (by decide +kernel)
  obtain ⟨after, same, last⟩ := (gives_seam_iff first outside _ _ m₂).1 both
  exact ⟨m₁, m₂, after, first, outside, last, same.symm⟩

end Session

end Scriptlet
