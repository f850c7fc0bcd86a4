import Scriptlet.Proofs.CursorProgram
import Scriptlet.Proofs.Fences

/-! Lines of a conversation and programs. A line is a lone expression exactly if a semicolon after it
makes it a program of that one expression statement, with the same reports; every other line is read
like a program. The cursor, which carries two marks to tell these cases apart, ends the same way. -/
namespace Scriptlet

namespace Parser

section Closed

variable {inner : Rules} {mark : Token} {ts : List Token} {e : Expr} {cs : List Complaint}

theorem fence_semicolon (semicolon : mark.kind = .semicolon) (more : List Token) :
    Fence (mark :: more) := by
  rintro t ⟨⟩
  rw [semicolon]
  decide

theorem expressionStatement_iff_lone (fenced : Fenced [mark] inner.expression)
    (semicolon : mark.kind = .semicolon) :
    expressionStatement inner (ts ++ [mark]) = ⟨some (.expr e), [], cs⟩ ↔
      inner.expression ts = ⟨some e, [], cs⟩ := by
  have step := fenced ts
  match read : inner.expression ts, further : inner.expression (ts ++ [mark]), step with
  | _, _, .failure =>
    rw [expressionStatement, bind_of_none _ further]
    simp
  | _, _, @Step.Within.yield _ _ d rest complaints _ =>
    rw [expressionStatement, bind_of_some _ further]
    match rest with
    | [] =>
      rw [List.nil_append, bind_of_some _ (expect_of_kind _ semicolon [])]
      simp [pure_apply]
    | t :: rest =>
      -- a semicolon before the last token leaves that one over
      by_cases early : t.kind = .semicolon
      · rw [List.cons_append, bind_of_some _ (expect_of_kind _ early _)]
        simp [pure_apply]
      · have other : ∀ u ∈ (t :: (rest ++ [mark])).head?, u.kind ≠ .semicolon := by
          rintro u ⟨⟩
          exact early
        rw [List.cons_append, bind_of_none _ (expect_of_other _ other)]
        simp

end Closed

theorem program_eq_single_iff {t : Token} {ts : List Token} {first : Option Stmt}
    {cs : List Complaint} :
    program (t :: ts) = ⟨some [first], [], cs⟩ ↔
      entry (Rules.within nestingLimit) (statement nestingLimit) .top (t :: ts) =
        ⟨some first, [], cs⟩ := by
  obtain ⟨one, mid, complaints, read, -, whole⟩ := program_cons t ts
  rw [whole, read]
  cases mid with
  | nil => simp [program_nil]
  | cons u mid =>
    obtain ⟨two, rest, complaints', -, -, further⟩ := program_cons u mid
    obtain ⟨others, value⟩ := Option.isSome_iff_exists.1 (unfailing_program rest)
    simp [further, value]

theorem entry_eq_expr_iff {t : Token} {ts rest : List Token} {e : Expr} {cs : List Complaint}
    (absent : t.kind ∉ Kind.opening) :
    entry (Rules.within nestingLimit) (statement nestingLimit) .top (t :: ts) =
        ⟨some (some (.expr e)), rest, cs⟩ ↔
      expressionStatement (Rules.within (nestingLimit - 1)) (t :: ts) =
        ⟨some (.expr e), rest, cs⟩ := by
  rw [entry_eq, recover, item_of_other absent]
  split <;> rename_i read <;> rw [read] <;> simp

end Parser

theorem Complaint.report_of_token {c : Complaint} (placed : c.token?.isSome)
    (finish finish' : Token) : c.report finish = c.report finish' := by
  obtain ⟨t, token⟩ := Option.isSome_iff_exists.1 placed
  simp only [Complaint.report, token, Option.getD_some]

section Lines

variable {ts : List Token} {mark : Token} {tail tail' : Tail} {e : Expr} {reports : Reports}

theorem clean_append_mark (clean : Clean ts) (semicolon : mark.kind = .semicolon) :
    Clean (ts ++ [mark]) := by
  intro t member
  obtain before | last := List.mem_append.1 member
  · exact clean t before
  · rw [List.mem_singleton.1 last, semicolon]
    decide

theorem parse_closed_iff (clean : Clean ts) (semicolon : mark.kind = .semicolon) :
    parse (ts ++ mark :: tail.closing :: tail.later) = ⟨.program [some (.expr e)], reports⟩ ↔
      ∃ cs, Parser.program (ts ++ [mark]) = ⟨some [some (.expr e)], [], cs⟩ ∧
        reports = cs.map (·.report tail.closing) := by
  rw [List.append_cons, parse_append (clean_append_mark clean semicolon)]
  obtain ⟨entries, rest, cs, read⟩ := Parser.unfailing_program.exists_read (ts ++ [mark])
  obtain rfl : rest = [] := by rw [← Parser.rest_program (ts ++ [mark]), read]
  simp only [read, Option.getD_some, Reading.mk.injEq, Parsed.program.injEq, Step.mk.injEq,
    Option.some.injEq, true_and]
  constructor
  · rintro ⟨rfl, rfl⟩
    exact ⟨cs, ⟨rfl, rfl⟩, rfl⟩
  · rintro ⟨_, ⟨rfl, rfl⟩, rfl⟩
    exact ⟨rfl, rfl⟩

theorem parseLine_eq_expression_iff (clean : Clean ts) :
    parseLine (ts ++ tail.closing :: tail.later) = ⟨.expression e, reports⟩ ↔
      ts.head?.any (·.kind ∈ Kind.opening) = false ∧
        ∃ cs, Parser.bareExpression ts = ⟨some e, [], cs⟩ ∧
          reports = cs.map (·.report tail.closing) := by
  by_cases lone : ts.head?.any (·.kind ∈ Kind.opening) = false ∧
      ∃ d cs, Parser.bareExpression ts = ⟨some d, [], cs⟩
  · obtain ⟨absent, d, cs, read⟩ := lone
    rw [parseLine_of_lone clean absent read]
    simp only [absent, read, Reading.mk.injEq, Parsed.expression.injEq, Step.mk.injEq,
      Option.some.injEq, true_and]
    constructor
    · rintro ⟨rfl, rfl⟩
      exact ⟨cs, ⟨rfl, rfl⟩, rfl⟩
    · rintro ⟨_, ⟨rfl, rfl⟩, rfl⟩
      exact ⟨rfl, rfl⟩
  · have joined : ts.head?.any (·.kind ∈ Kind.opening) = false →
        ∀ d cs, Parser.bareExpression ts ≠ ⟨some d, [], cs⟩ :=
      fun absent d cs read => lone ⟨absent, d, cs, read⟩
    rw [parseLine_of_joined clean joined, parse_append clean]
    constructor
    · intro same
      nomatch congrArg Reading.parsed same
    · rintro ⟨absent, cs, read, -⟩
      exact absurd read (joined absent e cs)

theorem parseLine_expression_or_parse (tokens : List Token) :
    (∃ e reports, parseLine tokens = ⟨.expression e, reports⟩) ∨ parseLine tokens = parse tokens := by
  rw [parseLine]
  split
  · exact .inl ⟨_, _, rfl⟩
  · exact .inr rfl

theorem parseLine_iff_parse_closed (clean : Clean ts) (semicolon : mark.kind = .semicolon) :
    parseLine (ts ++ tail.closing :: tail.later) = ⟨.expression e, reports⟩ ↔
      (∃ t ∈ ts.head?, t.kind ∉ Kind.opening) ∧
        parse (ts ++ mark :: tail'.closing :: tail'.later) =
          ⟨.program [some (.expr e)], reports⟩ := by
  have fenced : (Rules.within (nestingLimit - 1)).expression.Fenced [mark] :=
    (Parser.fenced_within (Parser.fence_semicolon semicolon []) (nestingLimit - 1)).expression
  rw [parseLine_eq_expression_iff clean, parse_closed_iff clean semicolon, Parser.bareExpression]
  cases ts with
  | nil =>
    have taken := (Parser.advancing_within (nestingLimit - 1)).expression.consumes []
    simp only [List.head?_nil, Option.not_mem_none, false_and, exists_false, iff_false, not_and]
    rintro - ⟨cs, read, -⟩
    rw [read] at taken
    simp at taken
  | cons t ts =>
    have opening : (t :: ts).head?.any (·.kind ∈ Kind.opening) = false ↔ t.kind ∉ Kind.opening := by
      simp
    rw [opening]
    simp only [List.head?_cons, Option.mem_some_iff, exists_eq_left']
    refine and_congr_right fun absent => exists_congr fun cs => ?_
    rw [List.cons_append, Parser.program_eq_single_iff, Parser.entry_eq_expr_iff absent,
      ← List.cons_append, Parser.expressionStatement_iff_lone fenced semicolon]
    refine and_congr_right fun read => ?_
    -- a lone expression is not complained about at its end, so it does not matter which token that is
    have placed : ∀ c ∈ cs, c.token?.isSome := by
      have step := fenced (t :: ts)
      rw [read] at step
      generalize (Rules.within (nestingLimit - 1)).expression (t :: ts ++ [mark]) = further at step
      cases step with
      | yield placed => exact placed
    rw [List.map_congr_left fun c member =>
      Complaint.report_of_token (placed c member) tail.closing tail'.closing]

end Lines

/-- Lines and programs agree. Tokens without a `finish` are a lone expression of a line exactly if
their first word opens no other statement and they are, with a semicolon, a program of that expression
alone, and then the reports are the same; in every other case the line is read like the program of its
tokens. The cursor reads both, with its marks, to the same end. -/
theorem lines_agree_with_programs {ts : List Token} (clean : ∀ t ∈ ts, t.kind ≠ .finish)
    (mark finish finish' : Token) (semicolon : mark.kind = .semicolon)
    (closed : finish.kind = .finish) (closed' : finish'.kind = .finish) :
    (∀ e reports, parseLine (ts ++ [finish]) = ⟨.expression e, reports⟩ ↔
      (∃ t ∈ ts.head?, t.kind ∉ Kind.opening) ∧
        parse (ts ++ [mark, finish']) = ⟨.program [some (.expr e)], reports⟩) ∧
    ((∃ e reports, parseLine (ts ++ [finish]) = ⟨.expression e, reports⟩) ∨
      parseLine (ts ++ [finish]) = parse (ts ++ [finish])) ∧
    Settles (Walk.line (.start (ts ++ [finish]).toArray)) (parseLine (ts ++ [finish])) ∧
    Settles (Walk.program (.start (ts ++ [finish]).toArray)) (parse (ts ++ [finish])) ∧
    Settles (Walk.program (.start (ts ++ [mark, finish']).toArray))
      (parse (ts ++ [mark, finish'])) := by
  let tail : Tail := ⟨finish, [], closed⟩
  let tail' : Tail := ⟨finish', [], closed'⟩
  have settles := @program_settles tail' _ (clean_append_mark clean semicolon)
  rw [← List.append_cons] at settles
  refine ⟨fun e reports => ?_, parseLine_expression_or_parse _, @line_settles tail ts clean,
    @program_settles tail ts clean, settles⟩
  exact @parseLine_iff_parse_closed ts mark tail tail' e reports clean semicolon

def targetSample : List Token :=
  [⟨.leftParen, "(", none, ⟨1, 1⟩⟩, ⟨.name, "a", none, ⟨1, 2⟩⟩, ⟨.rightParen, ")", none, ⟨1, 3⟩⟩,
    ⟨.equal, "=", none, ⟨1, 5⟩⟩, ⟨.name, "b", none, ⟨1, 7⟩⟩]

theorem targetSample_agrees :
    (∀ t ∈ targetSample, t.kind ≠ .finish) ∧
      parseLine (targetSample ++ [.finish ⟨1, 8⟩]) =
        ⟨.expression (.group (.var ⟨.name, "a", none, ⟨1, 2⟩⟩)),
          [⟨.grammar, .lexeme "=", ⟨1, 5⟩, "Invalid assignment target."⟩]⟩ := by
  have clean : ∀ t ∈ targetSample, t.kind ≠ .finish := by decide
  have both := lines_agree_with_programs clean ⟨.semicolon, ";", none, ⟨1, 8⟩⟩ (.finish ⟨1, 8⟩)
    (.finish ⟨1, 9⟩) rfl rfl rfl
  exact ⟨clean, (both.1 _ _).2 ⟨⟨_, rfl, by decide⟩, rfl⟩⟩

end Scriptlet
