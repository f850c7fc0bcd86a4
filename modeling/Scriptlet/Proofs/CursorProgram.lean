import Scriptlet.Proofs.CursorStmt

/-! Whole programs and lines with an index. Where the last token is a `finish`, the cursor starts in
front of the first such token and ends with the trees and reports of the list reader. -/
namespace Scriptlet

theorem Tail.exists_of_closed {tokens : List Token}
    (closed : tokens.getLast?.map Token.kind = some .finish) :
    ∃ (tail : Tail) (ts : List Token), tokens = ts ++ tail.closing :: tail.later ∧
      Clean ts := by
  obtain ⟨last, final, finish⟩ := Option.map_eq_some_iff.1 closed
  have found : (tokens.find? (·.kind == .finish)).isSome :=
    List.find?_isSome.2 ⟨last, List.mem_of_getLast? final, by simp [finish]⟩
  obtain ⟨closing, first⟩ := Option.isSome_iff_exists.1 found
  obtain ⟨stop, ts, later, split, before⟩ := List.find?_eq_some_iff_append.1 first
  have clean : Clean ts := fun t member => by simpa using before t member
  exact ⟨⟨closing, later, by simpa using stop⟩, ts, split, clean⟩

def Counters.start (allowExpression : Bool) : Counters := ⟨0, 0, [], allowExpression⟩

theorem Walks.all_track (tail : Tail) :
    Walks.all.TrackAt tail 0 (Rules.within nestingLimit) (Parser.statement nestingLimit) := by
  refine ⟨Parser.advancing_within _, Parser.advancing_statement _, fun depth => ?_, fun depth => ?_⟩
  · exact Tracks.within nestingLimit (by rw [depth, Nat.zero_add])
  · exact Tracks.statementWithin nestingLimit (by rw [depth, Nat.zero_add])

theorem Ends.program {tail : Tail} {ts : List Token} (reports : Reports) (clean : Clean ts) :
    Ends tail (.start false) [] ts reports ((Parsed.program <$> Parser.program) ts)
      (Walk.program (tail.cursor (.start false) [] ts reports)) := by
  have enough : ts.length < (tail.cursor (.start false) [] ts reports).tokens.size := by
    rw [Walk.size_cursor]
    omega
  rw [Walk.program, Walk.bind_of_value (w := Walk.state) _ rfl]
  refine Ends.bind (p := Parser.program) ?_ fun found _ _ _ _ => .pure _
  exact Tracks.entries (f := .start false) rfl (Walks.all_track tail) [] reports clean enough

namespace Walk

section Lines

variable {c c' : Cursor} {count : Nat} {found : List (Option Stmt)}

theorem lineLoop_of_end (ended : atEnd c = .value true c) :
    lineLoop (count + 1) found c = .value (.program found) c := by
  rw [lineLoop, bind_of_value _ ended]
  rfl

theorem lineLoop_of_entry {next : Option Stmt} (inside : atEnd c = .value false c)
    (read : entry .all c = .value next c') (missed : c'.foundExpression = false) :
    lineLoop (count + 1) found c =
      lineLoop count (found ++ [next]) { c' with allowExpression := false } := by
  rw [lineLoop, bind_of_value _ inside]
  simp only [Bool.false_eq_true, if_false]
  rw [bind_of_value _ read, bind_of_value (w := state) _ rfl]
  obtain ⟨tokens, current, depth, loopDepth, bodyEnds, allowExpression, foundExpression,
    reports⟩ := c'
  simp only at missed
  subst missed
  rfl

theorem lineLoop_of_expression {e : Expr} (inside : atEnd c = .value false c)
    (read : entry .all c = .value (some (.expr e)) c') (lone : c'.foundExpression = true) :
    lineLoop (count + 1) found c = .value (.expression e) c' := by
  rw [lineLoop, bind_of_value _ inside]
  simp only [Bool.false_eq_true, if_false]
  rw [bind_of_value _ read, bind_of_value (w := state) _ rfl, lone]
  rfl

end Lines

end Walk

theorem Ends.lineLoop {tail : Tail} {count : Nat} (passed : List Token) {left : List Token}
    (reports : Reports) (found : List (Option Stmt)) (clean : Clean left)
    (enough : left.length < count) :
    Ends tail (.start false) passed left reports
      ⟨(Parser.program left).value.map fun further => .program (found ++ further),
        (Parser.program left).rest, (Parser.program left).complaints⟩
      (Walk.lineLoop count found (tail.cursor (.start false) passed left reports)) := by
  induction count generalizing passed left reports found with
  | zero => omega
  | succ count ih =>
    cases left with
    | nil =>
      rw [Parser.program_nil, Walk.lineLoop_of_end Walk.atEnd_nil]
      exact .stay (by simp [outcome])
    | cons t left =>
      have inside := clean.head
      obtain ⟨used, same, ended⟩ := Tracks.entry (f := .start false) rfl (Walks.all_track tail)
        passed (t :: left) reports clean
      obtain ⟨first, mid, complaints, read, shorter, program⟩ := Parser.program_cons t left
      have top : (Counters.start false).setting = .top := rfl
      rw [top, read] at same ended
      have room : mid.length < count := by
        rw [List.length_cons] at enough
        omega
      obtain ⟨used', same', ended'⟩ := ih (passed ++ used)
        (reports ++ complaints.map (·.report tail.closing)) (found ++ [first]) (clean.rest same) room
      rw [Walk.lineLoop_of_entry (Walk.atEnd_cons inside) ended rfl, program]
      refine ⟨used ++ used', by rw [List.append_assoc, ← same']; exact same, ?_⟩
      have joined : (fun further => Parsed.program (found ++ [first] ++ further)) =
          (fun further => Parsed.program (found ++ further)) ∘ (first :: ·) := by
        funext further
        simp
      rw [joined] at ended'
      rw [List.map_append, Option.map_map, ← List.append_assoc, ← List.append_assoc]
      exact ended'

namespace Walk

section FirstEntry

variable {tail : Tail} {f : Counters} {passed left : List Token} {reports : Reports} {t : Token}

/-- Once a word has opened a statement, it does not matter that a lone expression was looked for. -/
theorem entry_of_opening (room : f.depth < nestingLimit) (clean : Clean (t :: left))
    (member : t.kind ∈ Kind.opening) :
    entry .all (tail.cursor f passed (t :: left) reports) =
      entry .all (tail.cursor f.quiet passed (t :: left) reports) := by
  have same : item .all (tail.cursor f passed (t :: left) reports) =
      item .all (tail.cursor f.quiet passed (t :: left) reports) := by
    rw [item, matchWord_cons _ _ clean, matchWord_cons _ _ clean]
    by_cases word : t.kind = .letWord
    · rw [if_pos word, if_pos word]
      rfl
    · have further : t.kind ∈ [Kind.printWord, .doWord, .ifWord, .whileWord, .forWord,
          .breakWord] := by
        simpa [Kind.opening, word] using member
      have entered (g : Counters) (room : g.depth < nestingLimit) :
          Walks.all.statement (tail.cursor g passed (t :: left) reports) =
            (statement (Walks.levels nestingLimit)).andThen leaveRule
              (tail.cursor g.deeper passed (t :: left) reports) := nested_of_room _ room
      rw [if_neg word, if_neg word, entered f room, entered f.quiet room, andThen, andThen,
        statement_of_word _ clean further, statement_of_word _ clean further]
      rfl
  rw [entry, orElse, orElse, same]

theorem item_of_other (room : f.depth < nestingLimit) (clean : Clean (t :: left))
    (absent : t.kind ∉ Kind.opening) :
    item .all (tail.cursor f passed (t :: left) reports) =
      (expressionStatement (Walks.levels nestingLimit)).nested
        (tail.cursor f passed (t :: left) reports) := by
  have other : t.kind ≠ .letWord := fun word => absent (by simp [Kind.opening, word])
  have further : ∀ u ∈ (t :: left).head?,
      u.kind ∉ [Kind.printWord, .doWord, .ifWord, .whileWord, .forWord, .breakWord] := by
    rintro u ⟨⟩ member
    exact absent (List.mem_cons_of_mem _ member)
  have entered : Walks.all.statement (tail.cursor f passed (t :: left) reports) =
      (statement (Walks.levels nestingLimit)).andThen leaveRule
        (tail.cursor f.deeper passed (t :: left) reports) := nested_of_room _ room
  rw [item, matchWord_cons _ _ clean, if_neg other, entered, nested_of_room _ room, andThen,
    andThen, statement_of_other _ clean further]

end FirstEntry

end Walk

theorem Parser.item_of_other {t : Token} (absent : t.kind ∉ Kind.opening) {ts : List Token} :
    Parser.item (Rules.within nestingLimit) (Parser.statement nestingLimit) .top (t :: ts) =
      Parser.expressionStatement (Rules.within (nestingLimit - 1)) (t :: ts) := by
  have other : ∀ u ∈ (t :: ts).head?, u.kind ∉ [Kind.letWord] := by
    rintro u ⟨⟩ member
    exact absent (List.mem_cons.2 (.inl (List.mem_singleton.1 member)))
  have further : ∀ u ∈ (t :: ts).head?,
      u.kind ∉ [Kind.printWord, .doWord, .ifWord, .whileWord, .forWord, .breakWord] := by
    rintro u ⟨⟩ member
    exact absent (List.mem_cons_of_mem _ member)
  have deeper : Parser.statement nestingLimit .top = Parser.statementWith
      (Rules.within (nestingLimit - 1)) (Parser.statement (nestingLimit - 1)) .top := rfl
  rw [Parser.item, Parser.accept_bind_not_mem _ other, deeper]
  exact Parser.accept_bind_not_mem _ further

section LoneExpression

variable {tail : Tail} {f : Counters} {rules : Rules} {walks : Walks} {left : List Token}

theorem Walk.expressionStatement_of_lone (inner : walks.Track tail f rules)
    (allowed : f.allowExpression = true) (passed : List Token) (reports : Reports)
    (clean : Clean left) {e : Expr} {complaints : List Complaint}
    (read : rules.expression left = ⟨some e, [], complaints⟩) :
    Walk.expressionStatement walks (tail.cursor f passed left reports) =
      .value (.expr e) { tail.cursor f (passed ++ left) []
        (reports ++ complaints.map (·.report tail.closing)) with foundExpression := true } := by
  obtain ⟨used, same, ended⟩ := inner.expression passed left reports clean
  rw [read] at same ended
  obtain rfl : left = used := by simpa using same
  have bare : Walk.endsBare (tail.cursor f (passed ++ left) []
      (reports ++ complaints.map (·.report tail.closing))) =
        .value true (tail.cursor f (passed ++ left) []
          (reports ++ complaints.map (·.report tail.closing))) := by
    rw [Walk.endsBare, Walk.bind_of_value (w := Walk.state) _ rfl]
    exact (congrFun (if_pos allowed) _).trans Walk.atEnd_nil
  rw [Walk.expressionStatement, Walk.bind_of_value _ ended, Walk.bind_of_value _ bare]
  rfl

end LoneExpression

section FirstEntry

variable {tail : Tail} {t : Token} {left : List Token} {reports : Reports}

theorem Ends.entry_of_opening (clean : Clean (t :: left)) (member : t.kind ∈ Kind.opening) :
    Ends tail (.start false) [] (t :: left) reports
      (Parser.entry (Rules.within nestingLimit) (Parser.statement nestingLimit) .top (t :: left))
      (Walk.entry .all (tail.cursor (.start true) [] (t :: left) reports)) := by
  rw [Walk.entry_of_opening (by decide) clean member]
  exact Tracks.entry (f := .start false) rfl (Walks.all_track tail) [] (t :: left) reports clean

theorem Walks.inner_track (tail : Tail) :
    (Walks.levels nestingLimit).Track tail (Counters.start true).deeper
      (Rules.within (nestingLimit - 1)) :=
  Tracks.within (nestingLimit - 1) rfl

theorem Walk.entry_of_lone (clean : Clean (t :: left)) (absent : t.kind ∉ Kind.opening) {e : Expr}
    {complaints : List Complaint}
    (read : Parser.bareExpression (t :: left) = ⟨some e, [], complaints⟩) :
    Walk.entry .all (tail.cursor (.start true) [] (t :: left) reports) =
      .value (some (.expr e)) { tail.cursor (.start true) (t :: left) []
        (reports ++ complaints.map (·.report tail.closing)) with foundExpression := true } := by
  have ended := Walk.expressionStatement_of_lone (Walks.inner_track tail) rfl [] reports clean read
  rw [Walk.entry, Walk.orElse, Walk.item_of_other (by decide) clean absent,
    Walk.nested_of_room _ (by decide), Walk.andThen, ended]
  rfl

theorem Ends.entry_of_joined (clean : Clean (t :: left)) (absent : t.kind ∉ Kind.opening)
    (joined : ∀ e complaints, Parser.bareExpression (t :: left) ≠ ⟨some e, [], complaints⟩) :
    Ends tail (.start true) [] (t :: left) reports
      (Parser.entry (Rules.within nestingLimit) (Parser.statement nestingLimit) .top (t :: left))
      (Walk.entry .all (tail.cursor (.start true) [] (t :: left) reports)) := by
  have inner := Walks.inner_track tail
  refine Ends.orElse (f := .start true) (p := Parser.item _ _ .top) clean ?_
  rw [Walk.item_of_other (by decide) clean absent, Parser.item_of_other absent]
  exact (Ends.expressionStatement inner [] reports clean fun _ => joined).nested (by decide)

end FirstEntry

/-- A walk over a whole text ends with the trees and the reports of a reading, outside of every rule
and loop. -/
def Settles (result : Arrival Parsed) (reading : Reading) : Prop :=
  ∃ c, result = .value reading.parsed c ∧ c.reports = reading.reports ∧ c.depth = 0 ∧
    c.loopDepth = 0

def SettlesAfter (before : Reports) (result : Arrival Parsed) (reading : Reading) : Prop :=
  ∃ c, result = .value reading.parsed c ∧ c.reports = before ++ reading.reports ∧ c.depth = 0 ∧
    c.loopDepth = 0

section Settling

variable {tail : Tail} {ts : List Token} {before : Reports}

theorem parse_append (clean : Clean ts) :
    parse (ts ++ tail.closing :: tail.later) =
      ⟨.program ((Parser.program ts).value.getD []),
        (Parser.program ts).complaints.map (·.report tail.closing)⟩ := by
  simp only [parse, Reading.of, Reading.content_append clean tail.closed,
    Reading.closing_append clean tail.closed]

theorem program_settlesAfter (clean : Clean ts) :
    SettlesAfter before
      (Walk.program { Cursor.start (ts ++ tail.closing :: tail.later).toArray with reports := before })
      (parse (ts ++ tail.closing :: tail.later)) := by
  obtain ⟨used, same, ended⟩ := @Ends.program tail ts before clean
  obtain ⟨found, rest, complaints, read⟩ := Parser.unfailing_program.exists_read ts
  rw [Parser.map_apply, read] at ended
  rw [parse_append clean, read]
  exact ⟨_, ended, rfl, rfl, rfl⟩

/-- A line that begins with an entry of a program is read like that program. -/
theorem lineLoop_settlesAfter {g : Counters} {t : Token} {count : Nat} (quiet : g.quiet = .start false)
    (clean : Clean (t :: ts)) (enough : ts.length < count)
    (first : Ends tail g [] (t :: ts) before
      (Parser.entry (Rules.within nestingLimit) (Parser.statement nestingLimit) .top (t :: ts))
      (Walk.entry .all (tail.cursor (.start true) [] (t :: ts) before))) :
    SettlesAfter before
      (Walk.lineLoop (count + 1) [] (tail.cursor (.start true) [] (t :: ts) before))
      (parse (t :: ts ++ tail.closing :: tail.later)) := by
  obtain ⟨used, same, ended⟩ := first
  obtain ⟨one, mid, complaints, read, shorter, program⟩ := Parser.program_cons t ts
  rw [read] at same ended
  have room : mid.length < count := Nat.lt_of_le_of_lt shorter enough
  let reports := before ++ complaints.map (·.report tail.closing)
  have moved : ({ tail.cursor g used mid reports with allowExpression := false } : Cursor) =
      tail.cursor (.start false) used mid reports := by
    rw [← quiet]
    rfl
  obtain ⟨further, same', ended'⟩ := Ends.lineLoop used reports [one] (clean.rest same) room
  obtain ⟨found, rest, complaints', read'⟩ := Parser.unfailing_program.exists_read mid
  rw [read'] at ended'
  rw [Walk.lineLoop_of_entry (Walk.atEnd_cons clean.head) ended rfl, parse_append clean, program,
    read']
  refine ⟨_, (congrArg (Walk.lineLoop count [one]) moved).trans ended', ?_, rfl, rfl⟩
  simp [Tail.cursor, reports]

theorem parseLine_of_lone (clean : Clean ts)
    (absent : ts.head?.any (·.kind ∈ Kind.opening) = false) {e : Expr} {complaints : List Complaint}
    (read : Parser.bareExpression ts = ⟨some e, [], complaints⟩) :
    parseLine (ts ++ tail.closing :: tail.later) =
      ⟨.expression e, complaints.map (·.report tail.closing)⟩ := by
  simp only [parseLine, wholeExpression?, Reading.content_append clean tail.closed, absent,
    Bool.false_eq_true, if_false, read, Reading.of, Reading.closing_append clean tail.closed]

theorem parseLine_of_joined (clean : Clean ts)
    (joined : ts.head?.any (·.kind ∈ Kind.opening) = false →
      ∀ e complaints, Parser.bareExpression ts ≠ ⟨some e, [], complaints⟩) :
    parseLine (ts ++ tail.closing :: tail.later) = parse (ts ++ tail.closing :: tail.later) := by
  have none : wholeExpression? (ts ++ tail.closing :: tail.later) = none := by
    rw [wholeExpression?, Reading.content_append clean tail.closed]
    split
    · rfl
    · rename_i absent
      split
      · rename_i e complaints read
        exact absurd read (joined (by simpa using absent) e complaints)
      · rfl
  rw [parseLine, none]

theorem line_settlesAfter (clean : Clean ts) :
    SettlesAfter before
      (Walk.line { Cursor.start (ts ++ tail.closing :: tail.later).toArray with reports := before })
      (parseLine (ts ++ tail.closing :: tail.later)) := by
  have size := Walk.size_cursor tail (.start true) [] ts before
  have begun :
      Walk.line { Cursor.start (ts ++ tail.closing :: tail.later).toArray with reports := before } =
        Walk.lineLoop (ts.length + tail.later.length + 1) []
          (tail.cursor (.start true) [] ts before) := by
    rw [List.length_nil, Nat.zero_add] at size
    rw [← size]
    rfl
  rw [begun]
  match ts with
  | [] =>
    have taken := (Parser.advancing_within (nestingLimit - 1)).expression.consumes []
    rw [parseLine_of_joined clean fun _ e complaints read => ?_, parse_append clean,
      Parser.program_nil, Walk.lineLoop_of_end Walk.atEnd_nil]
    · exact ⟨_, rfl, (List.append_nil before).symm, rfl, rfl⟩
    · rw [Parser.bareExpression] at read
      rw [read] at taken
      simp at taken
  | t :: ts =>
    have enough : ts.length < ts.length + 1 + tail.later.length := by omega
    by_cases opening : t.kind ∈ Kind.opening
    · rw [parseLine_of_joined clean (by simp [opening])]
      exact lineLoop_settlesAfter rfl clean enough (Ends.entry_of_opening clean opening)
    · by_cases lone : ∃ e complaints, Parser.bareExpression (t :: ts) = ⟨some e, [], complaints⟩
      · obtain ⟨e, complaints, read⟩ := lone
        rw [parseLine_of_lone clean (by simpa using opening) read]
        have first : Walk.entry .all (tail.cursor (.start true) [] (t :: ts) before) = _ :=
          Walk.entry_of_lone clean opening read
        exact ⟨_, Walk.lineLoop_of_expression (Walk.atEnd_cons clean.head) first rfl, rfl, rfl, rfl⟩
      · have joined : ∀ e complaints, Parser.bareExpression (t :: ts) ≠ ⟨some e, [], complaints⟩ :=
          fun e complaints read => lone ⟨e, complaints, read⟩
        rw [parseLine_of_joined clean fun _ => joined]
        exact lineLoop_settlesAfter rfl clean enough (Ends.entry_of_joined clean opening joined)

theorem program_settles (clean : Clean ts) :
    Settles (Walk.program (Cursor.start (ts ++ tail.closing :: tail.later).toArray))
      (parse (ts ++ tail.closing :: tail.later)) :=
  @program_settlesAfter tail ts [] clean

theorem line_settles (clean : Clean ts) :
    Settles (Walk.line (Cursor.start (ts ++ tail.closing :: tail.later).toArray))
      (parseLine (ts ++ tail.closing :: tail.later)) :=
  @line_settlesAfter tail ts [] clean

end Settling

end Scriptlet
