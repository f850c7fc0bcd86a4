import Scriptlet.Proofs.Continuation
import Scriptlet.Proofs.Lexemes

/-! Layout does not count. The text of a token decides what kind of token it is and what it stands
for, so two texts with the same lexemes have the same tokens, though in other places. They are read to
trees that are alike and run alike; only what the scanner itself reports may differ. -/
namespace Scriptlet

namespace Lexical

section Alone

variable {text rest rest' : List Char} {kind kind' : Kind} {literal literal' : Option Value}

theorem Lexeme.alone (lexeme : Lexeme text rest (.token kind literal)) :
    Lexeme text [] (.token kind literal) := by
  cases lexeme with
  | operator member => exact .operator member
  | reserved member => exact .reserved member
  | name word other => exact .name word other
  | whole digits => exact .whole digits
  | decimal digits decimals => exact .decimal digits decimals
  | string inside => exact .string inside

theorem Lexeme.first_eq {c : Char} {cs : List Char}
    (lexeme : Lexeme (c :: cs) rest (.token kind literal)) :
    Piece.first c cs = ⟨c :: cs, .token kind literal⟩ := by
  obtain same | ⟨longer, -⟩ := lexeme.alone.reached (List.append_nil _)
  · exact same
  · have within := (Piece.first_within c cs).length_le
    omega

theorem Lexeme.unique (first : Lexeme text rest (.token kind literal))
    (second : Lexeme text rest' (.token kind' literal')) : kind = kind' ∧ literal = literal' := by
  obtain ⟨c, cs, rfl⟩ := List.exists_cons_of_ne_nil first.ne_nil
  have form := congrArg Piece.form (first.first_eq.symm.trans second.first_eq)
  exact Form.token.inj form

end Alone

end Lexical

/-- Tokens that are the same word, wherever they stand. -/
structure Token.Moved (t u : Token) : Prop where
  kind : t.kind = u.kind
  lexeme : t.lexeme = u.lexeme
  literal : t.literal = u.literal

theorem Token.finish_moved (p q : Position) : (Token.finish p).Moved (Token.finish q) :=
  ⟨rfl, rfl, rfl⟩

theorem likeness_moved : Likeness Token.Moved where
  kind moved := moved.kind
  lexeme moved := moved.lexeme
  literal moved := moved.literal
  compound := by
    intro t u x y moved first second
    have same : Expr.compound? u = (Expr.compound? t).map fun v => { v with pos := u.pos } := by
      simp only [Expr.compound?, moved.kind]
      split <;> rfl
    rw [first] at same
    obtain rfl := Option.some.inj (second.symm.trans same)
    exact ⟨rfl, rfl, rfl⟩

/-- A token whose kind and literal are those of its lexeme. -/
def Token.Spelled (t : Token) : Prop :=
  ∃ text rest, t.lexeme = String.ofList text ∧ Lexical.Lexeme text rest (.token t.kind t.literal)

theorem Token.Spelled.moved {t u : Token} (first : t.Spelled) (second : u.Spelled)
    (same : t.lexeme = u.lexeme) : t.Moved u := by
  obtain ⟨text, rest, spelling, lexeme⟩ := first
  obtain ⟨text', rest', spelling', lexeme'⟩ := second
  obtain rfl : text = text' := String.ofList_injective (spelling.symm.trans (same.trans spelling'))
  obtain ⟨kind, literal⟩ := lexeme.unique lexeme'
  exact ⟨kind, same, literal⟩

theorem Token.moved_of_lexemes {ts us : List Token} (first : ∀ t ∈ ts, t.Spelled)
    (second : ∀ u ∈ us, u.Spelled) (same : ts.map Token.lexeme = us.map Token.lexeme) :
    List.Forall₂ Token.Moved ts us := by
  induction ts generalizing us with
  | nil =>
    obtain rfl : us = [] := by simpa using same.symm
    exact .nil
  | cons t ts ih =>
    cases us with
    | nil => simp at same
    | cons u us =>
      obtain ⟨spelled, further⟩ := List.forall_mem_cons.1 first
      obtain ⟨spelled', further'⟩ := List.forall_mem_cons.1 second
      obtain ⟨head, tail⟩ := List.cons.inj same
      exact .cons (spelled.moved spelled' head) (ih further further' tail)

namespace Scan

theorem words_spelled (source : List Char) : ∀ t ∈ words source, t.Spelled := by
  intro t member
  obtain ⟨⟨p, piece⟩, placed, token⟩ := List.mem_filterMap.1 member
  obtain ⟨c, cs, rfl⟩ := Piece.exists_first (mem_pieces_of_placed placed)
  have lexeme := Lexical.first_lexeme (Piece.first_append c cs)
  generalize Piece.first c cs = piece at lexeme token
  obtain ⟨text, form⟩ := piece
  cases form with
  | token kind literal =>
    obtain rfl := Option.some.inj token
    obtain lexeme | ⟨f, fault, -⟩ := lexeme
    · exact ⟨text, _, rfl, lexeme⟩
    · nomatch fault
  | _ => simp [token?] at token

/-- The lexemes of a text decide its tokens up to their places. -/
theorem words_moved {a b : String}
    (same : (scan a).tokens.map Token.lexeme = (scan b).tokens.map Token.lexeme) :
    List.Forall₂ Token.Moved (words a.toList) (words b.toList) := by
  refine Token.moved_of_lexemes (words_spelled _) (words_spelled _) ?_
  rw [scan, scan, tokens_ofChars, tokens_ofChars, List.map_append, List.map_append] at same
  exact (List.append_inj_left' same rfl)

end Scan

structure Report.Moved (r s : Report) : Prop where
  kind : r.kind = s.kind
  location : r.location = s.location
  message : r.message = s.message

/-- The reports that do not come from the scanner. -/
def Reports.afterScan (rs : Reports) : Reports :=
  rs.filter (·.kind != .lexical)

theorem Report.grammar_moved {t u : Token} (moved : t.Moved u) (message : String) :
    (Report.grammar t message).Moved (Report.grammar u message) := by
  refine ⟨rfl, ?_, rfl⟩
  simp only [Report.grammar, moved.kind, moved.lexeme]

theorem Report.runtime_moved {f g : Failure} (moved : f.token.Moved g.token)
    (same : f.fault = g.fault) : (Report.runtime f).Moved (Report.runtime g) := by
  refine ⟨?_, ?_, ?_⟩
  · simp only [Report.runtime, same]
  · simp only [Report.runtime, moved.lexeme]
  · simp only [Report.runtime, Failure.message, same]

theorem Complaint.report_moved {c d : Complaint} (like : c.Like Token.Moved d) {finish finish' : Token}
    (moved : finish.Moved finish') : (c.report finish).Moved (d.report finish') := by
  obtain ⟨token, mistake⟩ := like
  simp only [Complaint.report, mistake]
  generalize c.token? = x, d.token? = y at token
  cases token with
  | none => exact Report.grammar_moved moved _
  | some same => exact Report.grammar_moved same _

namespace Reports

theorem afterScan_append (rs ss : Reports) :
    (rs ++ ss).afterScan = rs.afterScan ++ ss.afterScan :=
  List.filter_append ..

theorem afterScan_scan (source : String) : (scan source).reports.afterScan = [] := by
  rw [afterScan, List.filter_eq_nil_iff]
  intro r member
  simp [Scan.reports_lexical member]

theorem afterScan_complaints (cs : List Complaint) (finish : Token) :
    afterScan (cs.map (·.report finish)) = cs.map (·.report finish) := by
  rw [afterScan, List.filter_eq_self, List.forall_mem_map]
  exact fun _ _ => rfl

theorem afterScan_runtime (f : Failure) : afterScan [.runtime f] = [.runtime f] := by
  have runtime := f.fault.atRuntime_kind
  have other : f.fault.kind ≠ .lexical := by
    intro lexical
    simp [lexical, ReportKind.atRuntime] at runtime
  simp [afterScan, Report.runtime, other]

end Reports

namespace Session

/-- Calls that end in the same machine, with reports that correspond but for those of the scanner; or
neither ends. -/
inductive Moved : EStateM.Result Stop Machine Reply → EStateM.Result Stop Machine Reply → Prop
  | ok {reply reply' : Reply} {m : Machine} :
      List.Forall₂ Report.Moved reply.reports.afterScan reply'.reports.afterScan →
      Moved (.ok reply m) (.ok reply' m)
  | error {s t : Stop} {m m' : Machine} : Moved (.error s m) (.error t m')

theorem perform_moved {rounds : Nat} {reports reports' : Reports}
    {entries entries' : List (Option Stmt)} {m : Machine}
    (before : List.Forall₂ Report.Moved reports.afterScan reports'.afterScan)
    (ends : SameEnd (Exit.Like Token.Moved)
      (Stmt.execAll rounds Machine.globalScope (entries.filterMap id) m)
      (Stmt.execAll rounds Machine.globalScope (entries'.filterMap id) m)) :
    Moved (perform rounds reports (.program entries) m)
      (perform rounds reports' (.program entries') m) := by
  rw [perform_program, perform_program]
  generalize Stmt.execAll rounds Machine.globalScope (entries.filterMap id) m = r,
    Stmt.execAll rounds Machine.globalScope (entries'.filterMap id) m = q at ends
  cases ends with
  | ok => exact .ok before
  | error like =>
    cases like with
    | left => exact .ok before
    | stop like =>
      cases like with
      | failure moved same =>
        refine .ok ?_
        simp only [Reports.afterScan_append, Reports.afterScan_runtime]
        exact List.rel_append before (.cons (Report.runtime_moved moved same) .nil)
      | malformed => exact .error
      | exhausted => exact .error

theorem run_moved {a b : String}
    (same : (scan a).tokens.map Token.lexeme = (scan b).tokens.map Token.lexeme) (rounds : Nat)
    (m : Machine) : Moved (run rounds a m) (run rounds b m) := by
  have like := Parser.alike_program likeness_moved _ _ (Scan.words_moved same)
  have given : (Parser.program (Scan.words a.toList)).value.isSome := Parser.unfailing_program _
  rw [run_eq, run_eq]
  generalize Parser.program (Scan.words a.toList) = step,
    Parser.program (Scan.words b.toList) = step' at like given
  obtain ⟨value, -, complaints⟩ := like
  refine perform_moved ?_ ?_
  · simp only [Reports.afterScan_append, Reports.afterScan_scan, Reports.afterScan_complaints,
      List.nil_append, List.forall₂_map_left_iff, List.forall₂_map_right_iff]
    exact complaints.imp fun _ _ like => Complaint.report_moved like (Token.finish_moved _ _)
  · generalize step.value = x, step'.value = y at value given
    cases value with
    | none => simp at given
    | some like => exact Stmt.execAll_like likeness_moved rounds (.filterMap like) _ m

/-- Layout never changes what a text does. If two texts have the same lexemes, then from every machine
the run of one ends if that of the other does; both end in the same machine, with the same output and
variables, and with reports about the grammar and the run that correspond one to one and differ at most
in their places. -/
theorem gives_same_for_lexemes {a b : String}
    (same : (scan a).tokens.map Token.lexeme = (scan b).tokens.map Token.lexeme) (m : Machine) :
    ((∃ reports m', Gives a m reports m') ↔ ∃ reports m', Gives b m reports m') ∧
    ∀ reports m₁ reports' m₂, Gives a m reports m₁ → Gives b m reports' m₂ →
      m₁ = m₂ ∧ List.Forall₂ Report.Moved reports.afterScan reports'.afterScan := by
  have ended {a b : String}
      (same : (scan a).tokens.map Token.lexeme = (scan b).tokens.map Token.lexeme) :
      (∃ reports m', Gives a m reports m') → ∃ reports m', Gives b m reports m' := by
    rintro ⟨-, m', rounds, reply, ends, rfl⟩
    have both := run_moved same rounds m
    rw [ends] at both
    generalize result : run rounds b m = r at both
    cases both with
    | ok => exact ⟨_, m', rounds, _, result, rfl⟩
  refine ⟨⟨ended same, ended same.symm⟩, ?_⟩
  rintro - m₁ - m₂ ⟨rounds, reply, ends, rfl⟩ ⟨rounds', reply', ends', rfl⟩
  -- one number of rounds that is enough for both runs
  have both := run_moved same (max rounds rounds') m
  rw [run_more (Nat.le_max_left rounds rounds') ends,
    run_more (Nat.le_max_right rounds rounds') ends'] at both
  cases both with
  | ok moved => exact ⟨rfl, moved⟩

theorem gives_same_for_comments :
    (scan "print true; y+1;").tokens.map Token.lexeme =
        (scan "print /* a */ true\n; # y // b\n + 1;").tokens.map Token.lexeme ∧
      ∃ reports m', Gives "print /* a */ true\n; # y // b\n + 1;" (.start .unlimited) reports m' ∧
        List.Forall₂ Report.Moved
          [⟨.undefinedVariable, .lexeme "y", ⟨1, 13⟩, "Undefined variable 'y'."⟩]
          reports.afterScan := by
  have same : (scan "print true; y+1;").tokens.map Token.lexeme =
      (scan "print /* a */ true\n; # y // b\n + 1;").tokens.map Token.lexeme := by
    decide +kernel
  obtain ⟨m₁, first⟩ : ∃ m₁, Gives "print true; y+1;" (.start .unlimited)
      [⟨.undefinedVariable, .lexeme "y", ⟨1, 13⟩, "Undefined variable 'y'."⟩] m₁ :=
    exists_gives 1 (by decide +kernel)
  obtain ⟨reports, m₂, second⟩ := (gives_same_for_lexemes same _).1.1 ⟨_, _, first⟩
  have moved := ((gives_same_for_lexemes same _).2 _ _ _ _ first second).2
  exact ⟨same, reports, m₂, second, moved⟩

end Session

end Scriptlet
