import Scriptlet.Proofs.CursorExpr

/-! Statements with an index. A word that opens a statement makes the cursor stop looking for a lone
expression; from then on statements track those of the list reader, the way on after a mistake
included. -/
namespace Scriptlet

namespace Counters

def quiet (f : Counters) : Counters := { f with allowExpression := false }

theorem quiet_eq {f : Counters} (silent : f.allowExpression = false) : f.quiet = f := by
  rw [quiet, ← silent]

end Counters

namespace Walk

section Words

variable {α : Type} {tail : Tail} {f : Counters} {passed left : List Token} {reports : Reports}
  {t : Token} {kind : Kind} (found other : Walk α)

theorem matchWord_of_kind (inside : t.kind ≠ .finish) (same : t.kind = kind) :
    (matchWord kind >>= fun b => if b then found else other)
        (tail.cursor f passed (t :: left) reports) =
      found (tail.cursor f.quiet (passed ++ [t]) left reports) := by
  have member : t.kind ∈ [kind] := List.mem_singleton.2 same
  have matched : matchWord kind (tail.cursor f passed (t :: left) reports) =
      .value true (tail.cursor f.quiet (passed ++ [t]) left reports) := by
    rw [matchWord, bind_of_value _ (matchKinds_of_mem inside member)]
    rfl
  rw [bind_of_value _ matched]
  rfl

theorem matchWord_of_other (clean : Clean left)
    (absent : ∀ t ∈ left.head?, t.kind ≠ kind) :
    (matchWord kind >>= fun b => if b then found else other) (tail.cursor f passed left reports) =
      other (tail.cursor f passed left reports) := by
  have unmatched : matchWord kind (tail.cursor f passed left reports) =
      .value false (tail.cursor f passed left reports) := by
    rw [matchWord]
    cases left with
    | nil =>
      rw [bind_of_value _ (matchKinds_nil [kind])]
      rfl
    | cons t left =>
      have outside : t.kind ∉ [kind] := by simpa using absent t rfl
      rw [bind_of_value _ (matchKinds_of_not_mem clean.head outside)]
      rfl
  rw [bind_of_value _ unmatched]
  rfl

theorem matchWord_cons (clean : Clean (t :: left)) :
    (matchWord kind >>= fun b => if b then found else other)
        (tail.cursor f passed (t :: left) reports) =
      if t.kind = kind then found (tail.cursor f.quiet (passed ++ [t]) left reports)
      else other (tail.cursor f passed (t :: left) reports) := by
  by_cases same : t.kind = kind
  · rw [if_pos same, matchWord_of_kind _ _ clean.head same]
  · rw [if_neg same, matchWord_of_other _ _ clean (by simpa using same)]

end Words

section Skipping

variable {tail : Tail} {f : Counters} {reports : Reports}

theorem skip_nil (count : Nat) (passed : List Token) :
    skip (count + 1) (tail.cursor f passed [] reports) =
      .value () (tail.cursor f passed [] reports) := by
  rw [skip, bind_of_value _ atEnd_nil]
  rfl

theorem skip_eq {count : Nat} {left : List Token} (passed : List Token) (last : Token)
    (clean : Clean left) (enough : left.length < count) :
    ∃ used, left = used ++ Parser.skipAfter last left ∧
      skip count (tail.cursor f (passed ++ [last]) left reports) =
        .value () (tail.cursor f (passed ++ [last] ++ used)
          (Parser.skipAfter last left) reports) := by
  induction count generalizing passed left last with
  | zero => omega
  | succ count ih =>
    cases left with
    | nil => exact ⟨[], rfl, by rw [List.append_nil]; exact skip_nil count _⟩
    | cons t left =>
      have inside := clean.head
      rw [skip, bind_of_value _ (atEnd_cons inside)]
      simp only [Bool.false_eq_true, if_false]
      rw [bind_of_value _ (previous_eq ..)]
      by_cases semicolon : last.kind = .semicolon
      · refine ⟨[], by simp [Parser.skipAfter, semicolon], ?_⟩
        simp [Parser.skipAfter, semicolon]
        rfl
      · simp only [semicolon, if_false]
        rw [bind_of_value _ (peek_cons ..)]
        by_cases resuming : t.kind ∈ Kind.resuming
        · refine ⟨[], by simp [Parser.skipAfter, resuming], ?_⟩
          simp [Parser.skipAfter, resuming]
          rfl
        · have dropped : Parser.skipAfter last (t :: left) = Parser.skipAfter t left := by
            simp [Parser.skipAfter, semicolon, resuming]
          have fewer : left.length < count := by
            rw [List.length_cons] at enough
            omega
          obtain ⟨used, same, result⟩ := ih (passed ++ [last]) t
            clean.tail fewer
          rw [dropped]
          refine ⟨t :: used, by rw [List.cons_append, ← same], ?_⟩
          simp only [resuming, if_false]
          rw [bind_of_value _ (advance_cons inside), result]
          simp

theorem synchronize_of_closer {c : Cursor} {t : Token} (shown : peek c = .value t c)
    (closes : t.kind ∈ c.bodyEnds.headD []) : synchronize c = .value () c := by
  rw [synchronize, bind_of_value _ shown]
  exact congrFun (if_pos closes) c

theorem synchronize_of_other {c : Cursor} {t : Token} (shown : peek c = .value t c)
    (other : t.kind ∉ c.bodyEnds.headD []) :
    synchronize c = (advance >>= fun _ => state >>= fun c' => skip c'.tokens.size) c := by
  rw [synchronize, bind_of_value _ shown]
  exact congrFun (if_neg other) c

/-- The way on after a mistake is where the list reader goes on. -/
theorem synchronize_eq (tail : Tail) (f : Counters) (passed : List Token) {left : List Token}
    (reports : Reports) (clean : Clean left) :
    ∃ used, left = used ++ Parser.resume f.setting.closers left ∧
      synchronize (tail.cursor f passed left reports) =
        .value () (tail.cursor f (passed ++ used)
          (Parser.resume f.setting.closers left) reports) := by
  cases left with
  | nil =>
    refine ⟨[], rfl, ?_⟩
    rw [List.append_nil]
    by_cases closes : tail.closing.kind ∈ f.bodyEnds.headD []
    · exact synchronize_of_closer (peek_nil ..) closes
    · obtain ⟨t, stayed⟩ := @advance_nil tail f passed reports
      rw [synchronize_of_other (peek_nil ..) closes, bind_of_value _ stayed,
        bind_of_value (w := state) _ rfl, size_cursor]
      exact skip_nil _ passed
  | cons t left =>
    have inside := clean.head
    by_cases closes : t.kind ∈ f.setting.closers
    · rw [Parser.resume, if_pos closes, synchronize_of_closer (peek_cons ..) closes]
      exact ⟨[], rfl, by rw [List.append_nil]⟩
    · have enough : left.length < (tail.cursor f (passed ++ [t]) left reports).tokens.size := by
        rw [size_cursor]
        omega
      obtain ⟨used, same, result⟩ := skip_eq passed t
        clean.tail enough
      rw [Parser.resume, if_neg closes, synchronize_of_other (peek_cons ..) closes,
        bind_of_value _ (advance_cons inside), bind_of_value (w := state) _ rfl, result]
      exact ⟨t :: used, by rw [List.cons_append, ← same], by simp⟩

end Skipping

end Walk

theorem Ends.orElse {α : Type} {tail : Tail} {f : Counters} {passed left : List Token}
    {reports : Reports} {p : Parser α} {w : Walk α} (clean : Clean left)
    (inside : Ends tail f passed left reports (p left) (w (tail.cursor f passed left reports))) :
    Ends tail f passed left reports (Parser.recover (Parser.resume f.setting.closers) p left)
      (w.orElse Walk.synchronize (tail.cursor f passed left reports)) := by
  obtain ⟨used, same, ended⟩ := inside
  rw [Parser.recover, Walk.orElse, ended]
  generalize p left = step at same ⊢
  obtain ⟨value, rest, complaints⟩ := step
  cases value with
  | some a => exact ⟨used, same, rfl⟩
  | none =>
    obtain ⟨dropped, split, result⟩ := Walk.synchronize_eq tail f (passed ++ used)
      (reports ++ complaints.map (·.report tail.closing)) (clean.rest same)
    refine ⟨used ++ dropped, by rw [List.append_assoc, ← split]; exact same, ?_⟩
    rw [← List.append_assoc]
    exact Walk.bind_of_value (w := Walk.synchronize) _ result

theorem Ends.expressionStatement {tail : Tail} {f : Counters} {rules : Rules} {walks : Walks}
    {left : List Token} (inner : walks.Track tail f rules) (passed : List Token)
    (reports : Reports)
    (clean : Clean left)
    (joined : f.allowExpression = true →
      ∀ e complaints, rules.expression left ≠ ⟨some e, [], complaints⟩) :
    Ends tail f passed left reports (Parser.expressionStatement rules left)
      (Walk.expressionStatement walks (tail.cursor f passed left reports)) := by
  refine (inner.expression passed left reports clean).bind fun e used reports' same value => ?_
  have further := clean.rest same
  have bare : Walk.endsBare (tail.cursor f (passed ++ used) (rules.expression left).rest reports') =
      .value false (tail.cursor f (passed ++ used) (rules.expression left).rest reports') := by
    rw [Walk.endsBare, Walk.bind_of_value (w := Walk.state) _ rfl]
    by_cases allowed : f.allowExpression = true
    · match rest : (rules.expression left).rest with
      | [] =>
        have whole : rules.expression left = ⟨some e, [], (rules.expression left).complaints⟩ := by
          rw [← rest, ← value]
        exact absurd whole (joined allowed e _)
      | t :: ts =>
        rw [rest] at further
        exact (congrFun (if_pos allowed) _).trans (Walk.atEnd_cons further.head)
    · exact congrFun (if_neg allowed) _
  rw [Walk.bind_of_value _ bare]
  exact (Tracks.expect _ _).bind (fun _ => .pure _) _ _ _ further

namespace Tracks

section Steps

variable {α β : Type} {tail : Tail} {f : Counters}

theorem map {p : Parser α} {w : Walk α} (g : α → β) (inside : Tracks tail f p w) :
    Tracks tail f (g <$> p) (g <$> w) :=
  inside.bind fun a => .pure (g a)

theorem word_bind (silent : f.allowExpression = false) {kind : Kind} {g : Option Token → Parser β}
    {found other : Walk β} (taken : ∀ t, Tracks tail f (g (some t)) found)
    (absent : Tracks tail f (g none) other) :
    Tracks tail f (Parser.accept [kind] >>= g)
      (Walk.matchWord kind >>= fun b => if b then found else other) := by
  intro passed left reports clean
  by_cases here : ∃ t rest, left = t :: rest ∧ t.kind = kind
  · obtain ⟨t, rest, rfl, same⟩ := here
    have inside := clean.head
    rw [Parser.accept_bind_mem _ (List.mem_singleton.2 same),
      Walk.matchWord_of_kind _ _ inside same,
      Counters.quiet_eq silent]
    exact (taken t _ _ _ clean.tail).cons
  · have outside : ∀ t ∈ left.head?, t.kind ≠ kind := by
      intro t member same
      obtain ⟨rest, rfl⟩ := List.head?_eq_some_iff.1 member
      exact here ⟨t, rest, rfl, same⟩
    rw [Parser.accept_bind_not_mem _ (by simpa using outside),
      Walk.matchWord_of_other _ _ clean outside]
    exact absent passed left reports clean

theorem previous_bind {p : Parser β} {h : Token → Walk β} {t : Token}
    (inside : Tracks tail f p (h t)) (passed left : List Token) (reports : Reports)
    (clean : Clean left) :
    Ends tail f (passed ++ [t]) left reports (p left)
      ((Walk.previous >>= h) (tail.cursor f (passed ++ [t]) left reports)) := by
  rw [Walk.bind_of_value _ (Walk.previous_eq ..)]
  exact inside _ _ _ clean

end Steps

section Simple

variable {tail : Tail} {f : Counters} {rules : Rules} {walks : Walks}

theorem declaration (inner : walks.Track tail f rules) :
    Tracks tail f (Parser.declaration rules) (Walk.declaration walks) := by
  refine (Tracks.expect _ _).bind fun name => .accept_bind (fun _ => ?_) ?_
  · exact (inner.expression.map some).bind fun _ => (Tracks.expect _ _).bind fun _ => .pure _
  · exact (Tracks.pure none).bind fun _ => (Tracks.expect _ _).bind fun _ => .pure _

theorem expressionStatement (silent : f.allowExpression = false)
    (inner : walks.Track tail f rules) :
    Tracks tail f (Parser.expressionStatement rules) (Walk.expressionStatement walks) :=
  fun passed _ reports clean =>
    Ends.expressionStatement inner passed reports clean (by simp [silent])

theorem initialStatement (silent : f.allowExpression = false) (inner : walks.Track tail f rules) :
    Tracks tail f (Parser.initialStatement rules) (Walk.initialStatement walks) := by
  refine .accept_bind (fun _ => .pure none) (.accept_bind (fun _ => ?_) ?_)
  · exact (Tracks.declaration inner).map some
  · exact (Tracks.expressionStatement silent inner).map some

theorem optionalExpression (closer : Kind) (inner : walks.Track tail f rules) :
    Tracks tail f (Parser.optionalExpression rules closer)
      (Walk.optionalExpression walks closer) := by
  intro passed left reports clean
  rw [Parser.optionalExpression, Parser.next_bind, Walk.optionalExpression]
  cases left with
  | nil =>
    rw [Walk.bind_of_value _ (Walk.check_nil closer)]
    exact inner.expression.map some passed [] reports clean
  | cons t left =>
    rw [Walk.bind_of_value _ (Walk.check_cons clean.head closer)]
    by_cases closed : t.kind = closer
    · simp only [List.head?_cons, closed, decide_true, if_true]
      exact Tracks.pure none passed (t :: left) reports clean
    · simp only [List.head?_cons, closed, decide_false, Bool.false_eq_true, if_false]
      exact inner.expression.map some passed (t :: left) reports clean

theorem printStatement (keyword : Token) (inner : walks.Track tail f rules)
    (passed left : List Token) (reports : Reports) (clean : Clean left) :
    Ends tail f (passed ++ [keyword]) left reports (Parser.printStatement rules keyword left)
      (Walk.printStatement walks (tail.cursor f (passed ++ [keyword]) left reports)) := by
  refine previous_bind ?_ passed left reports clean
  exact inner.expression.bind fun _ => (Tracks.expect _ _).bind fun _ => .pure _

theorem breakStatement (keyword : Token) (passed left : List Token) (reports : Reports)
    (clean : Clean left) :
    Ends tail f (passed ++ [keyword]) left reports (Parser.breakStatement f.setting keyword left)
      (Walk.breakStatement (tail.cursor f (passed ++ [keyword]) left reports)) := by
  have ending : Tracks tail f
      (Parser.expect .semicolon .breakEnd >>= fun _ => Pure.pure (Stmt.leave keyword))
      (Walk.consume .semicolon .breakEnd >>= fun _ => Pure.pure (Stmt.leave keyword)) :=
    (Tracks.expect _ _).bind fun _ => .pure _
  refine previous_bind ?_ passed left reports clean
  intro passed left reports clean
  rw [Walk.bind_of_value (w := Walk.state) _ rfl, Parser.breakStatement]
  by_cases outside : (tail.cursor f passed left reports).loopDepth = 0
  · have none : f.loopDepth = 0 := outside
    have stray : (!f.setting.inLoop) = true := by simp [Counters.setting, none]
    rw [if_pos stray, if_pos outside]
    exact (Tracks.complain keyword .strayBreak).bind (fun _ => ending) passed left reports clean
  · have some : f.loopDepth ≠ 0 := outside
    have looped : ¬(!f.setting.inLoop) = true := by simp [Counters.setting, some]
    rw [if_neg looped, if_neg outside]
    exact ending passed left reports clean

end Simple

end Tracks

/-- At a depth the rules take tokens and track those of the list reader, whatever the other
counters are; statements do where no lone expression is looked for. -/
structure Walks.TrackAt (tail : Tail) (depth : Nat) (rules : Rules)
    (statement : Setting → Parser Stmt) (walks : Walks) : Prop where
  advancing : rules.Advancing
  moving (s : Setting) : (statement s).Advancing
  rules {f : Counters} : f.depth = depth → walks.Track tail f rules
  statement {f : Counters} : f.depth = depth → f.allowExpression = false →
    Tracks tail f (statement f.setting) walks.statement

namespace Walk

section AnyCheck

variable {tail : Tail} {f : Counters} {passed left : List Token} {reports : Reports} {t : Token}

theorem anyCheck_nil (kinds : List Kind) : anyCheck kinds (tail.cursor f passed [] reports) =
    .value false (tail.cursor f passed [] reports) := by
  induction kinds with
  | nil => rfl
  | cons kind kinds ih =>
    rw [anyCheck, bind_of_value _ (check_nil kind)]
    exact ih

theorem anyCheck_cons (inside : t.kind ≠ .finish) (kinds : List Kind) :
    anyCheck kinds (tail.cursor f passed (t :: left) reports) =
      .value (t.kind ∈ kinds) (tail.cursor f passed (t :: left) reports) := by
  induction kinds with
  | nil => rfl
  | cons kind kinds ih =>
    rw [anyCheck, bind_of_value _ (check_cons inside kind)]
    by_cases same : t.kind = kind
    · simp only [same, decide_true, if_true, List.mem_cons_self]
      rfl
    · simp only [same, decide_false, Bool.false_eq_true, if_false, List.mem_cons, false_or]
      exact ih

end AnyCheck

section FirstWord

def afterWord (walks : Walks) : Kind → Walk Stmt
  | .printWord => printStatement walks
  | .doWord => block walks
  | .ifWord => branch walks
  | .whileWord => whileLoop walks
  | .forWord => forLoop walks
  | _ => breakStatement

variable {tail : Tail} {f : Counters} {passed left : List Token} {reports : Reports} (walks : Walks)

theorem statement_of_word {t : Token} (clean : Clean (t :: left))
    (member : t.kind ∈ [.printWord, .doWord, .ifWord, .whileWord, .forWord, .breakWord]) :
    statement walks (tail.cursor f passed (t :: left) reports) =
      afterWord walks t.kind (tail.cursor f.quiet (passed ++ [t]) left reports) := by
  simp only [List.mem_cons, List.not_mem_nil, or_false] at member
  obtain same | same | same | same | same | same := member
  all_goals simp only [statement, matchWord_cons _ _ clean, same, reduceCtorEq, if_false, if_true,
    afterWord]

theorem statement_of_other (clean : Clean left)
    (absent : ∀ t ∈ left.head?,
      t.kind ∉ [Kind.printWord, .doWord, .ifWord, .whileWord, .forWord, .breakWord]) :
    statement walks (tail.cursor f passed left reports) =
      expressionStatement walks (tail.cursor f passed left reports) := by
  have no {kind : Kind}
      (member : kind ∈ [Kind.printWord, .doWord, .ifWord, .whileWord, .forWord, .breakWord]) :
      ∀ t ∈ left.head?, t.kind ≠ kind := by
    intro t first same
    exact absent t first (same ▸ member)
  rw [statement, matchWord_of_other _ _ clean (no (by simp)),
    matchWord_of_other _ _ clean (no (by simp)),
    matchWord_of_other _ _ clean (no (by simp)), matchWord_of_other _ _ clean (no (by simp)),
    matchWord_of_other _ _ clean (no (by simp)), matchWord_of_other _ _ clean (no (by simp))]

end FirstWord

end Walk

namespace Tracks

section Compound

variable {tail : Tail} {f : Counters} {rules : Rules} {statement : Setting → Parser Stmt}
  {walks : Walks}

theorem entry (silent : f.allowExpression = false)
    (inner : walks.TrackAt tail f.depth rules statement) :
    Tracks tail f (Parser.entry rules statement f.setting) (Walk.entry walks) := by
  intro passed left reports clean
  refine Ends.orElse clean (Tracks.word_bind silent (fun _ => ?_) ?_ passed left reports clean)
  · exact Tracks.declaration (inner.rules rfl)
  · exact inner.statement rfl silent

theorem entries (silent : f.allowExpression = false)
    (inner : walks.TrackAt tail f.depth rules statement)
    {count : Nat} (passed : List Token) {left : List Token} (reports : Reports)
    (clean : Clean left) (enough : left.length < count) :
    Ends tail f passed left reports
      (Parser.entries (Parser.entry rules statement) f.setting left)
      (Walk.entries walks f.setting.closers count (tail.cursor f passed left reports)) := by
  have shrinks : ∀ t ts, t.kind ∉ f.setting.closers →
      (Parser.entry rules statement f.setting (t :: ts)).rest.length < (t :: ts).length :=
    fun t ts inside => Parser.entry_length_lt inner.advancing (inner.moving _) inside ts
  induction count generalizing passed left reports with
  | zero => omega
  | succ count ih =>
    rw [Walk.entries]
    cases left with
    | nil =>
      rw [Parser.entries_of_closed (by simp), Walk.bind_of_value _ (Walk.anyCheck_nil _)]
      simp only [Bool.false_eq_true, if_false]
      rw [Walk.bind_of_value _ Walk.atEnd_nil]
      exact .pure _
    | cons t left =>
      have inside := clean.head
      rw [Walk.bind_of_value _ (Walk.anyCheck_cons inside _)]
      by_cases closed : t.kind ∈ f.setting.closers
      · rw [Parser.entries_of_closed (by simpa using closed)]
        simp only [closed, decide_true, if_true]
        exact .pure _
      · rw [Parser.entries_of_inside shrinks closed]
        simp only [closed, decide_false, Bool.false_eq_true, if_false]
        rw [Walk.bind_of_value _ (Walk.atEnd_cons inside)]
        refine (Tracks.entry silent inner passed _ reports clean).bind
          fun first used reports' same _ => ?_
        have shorter := shrinks t left closed
        refine Ends.bind (ih _ _ (clean.rest same) ?_) fun rest _ _ _ _ => ?_
        · rw [List.length_cons] at enough shorter
          omega
        · exact .pure _

theorem body (silent : f.allowExpression = false)
    (inner : walks.TrackAt tail f.depth rules statement)
    (closers : List Kind) :
    Tracks tail f (Parser.body rules statement (f.setting.closedBy closers))
      (Walk.body walks closers) := by
  intro passed left reports clean
  let g := f.closedBy closers
  have enough : left.length < (tail.cursor g passed left reports).tokens.size := by
    rw [Walk.size_cursor]
    omega
  obtain ⟨used, same, ended⟩ := entries (f := g) silent inner passed reports clean enough
  have entered : Walk.body walks closers (tail.cursor f passed left reports) =
      (Walk.entries walks g.setting.closers (tail.cursor g passed left reports).tokens.size >>=
        fun found =>
        Walk.update (fun c => { c with bodyEnds := c.bodyEnds.tail }) >>= fun _ =>
          Pure.pure (found.filterMap id)) (tail.cursor g passed left reports) := rfl
  have opened : Parser.body rules statement (f.setting.closedBy closers) left =
      (Parser.entries (Parser.entry rules statement) g.setting >>= fun found =>
        Pure.pure (found.filterMap id)) left := rfl
  rw [entered, opened]
  obtain ⟨found, rest, complaints, read⟩ :=
    (Parser.unfailing_entries rules statement g.setting).exists_read left
  rw [read] at same ended
  rw [Parser.bind_of_some _ read, Walk.bind_of_value _ ended]
  exact ⟨used, same, by rw [Parser.pure_apply, List.append_nil]; rfl⟩

theorem block (silent : f.allowExpression = false)
    (inner : walks.TrackAt tail f.depth rules statement) :
    Tracks tail f (Parser.block rules statement f.setting) (Walk.block walks) :=
  (Tracks.body silent inner _).bind fun _ => (Tracks.expect _ _).bind fun _ => .pure _

theorem branch (silent : f.allowExpression = false)
    (inner : walks.TrackAt tail f.depth rules statement) :
    Tracks tail f (Parser.branch rules statement f.setting) (Walk.branch walks) := by
  have part := Tracks.body silent inner
  refine (inner.rules rfl).expression.bind fun _ => (Tracks.expect _ _).bind fun _ => ?_
  refine (part _).bind fun _ => .accept_bind (fun _ => ?_) ?_
  · exact (part _).bind fun _ => (Tracks.expect _ _).bind fun _ => .pure _
  · exact (Tracks.pure []).bind fun _ => (Tracks.expect _ _).bind fun _ => .pure _

theorem loopBody (silent : f.allowExpression = false)
    (inner : walks.TrackAt tail f.depth rules statement) :
    Tracks tail f (statement f.setting.looped) (Walk.loopBody walks) := by
  intro passed left reports clean
  obtain ⟨used, same, ended⟩ := inner.statement (f := f.looped) rfl silent passed left reports clean
  refine ⟨used, same, ?_⟩
  have entered : Walk.loopBody walks (tail.cursor f passed left reports) =
      walks.statement.andThen Walk.leaveLoop (tail.cursor f.looped passed left reports) := rfl
  rw [entered, Walk.andThen, ended, Counters.setting_looped]
  cases (statement f.setting.looped left).value <;> rfl

theorem whileLoop (silent : f.allowExpression = false)
    (inner : walks.TrackAt tail f.depth rules statement) :
    Tracks tail f (Parser.whileLoop rules statement f.setting) (Walk.whileLoop walks) :=
  (inner.rules rfl).expression.bind fun _ => (Tracks.loopBody silent inner).bind fun _ => .pure _

theorem forLoop (silent : f.allowExpression = false)
    (inner : walks.TrackAt tail f.depth rules statement) :
    Tracks tail f (Parser.forLoop rules statement f.setting) (Walk.forLoop walks) := by
  have parts : walks.Track tail f rules := inner.rules rfl
  refine (Tracks.expect _ _).bind fun _ => (Tracks.initialStatement silent parts).bind fun _ => ?_
  refine (Tracks.optionalExpression _ parts).bind fun _ => (Tracks.expect _ _).bind fun _ => ?_
  refine (Tracks.optionalExpression _ parts).bind fun _ => (Tracks.expect _ _).bind fun _ => ?_
  exact (Tracks.loopBody silent inner).bind fun _ => .pure _

theorem simpleStatement (silent : f.allowExpression = false)
    (inner : walks.TrackAt tail f.depth rules statement) :
    Tracks tail f (Parser.statementWith rules statement f.setting) (Walk.statement walks) := by
  intro passed left reports clean
  by_cases word : ∃ t ∈ left.head?,
      t.kind ∈ [Kind.printWord, .doWord, .ifWord, .whileWord, .forWord, .breakWord]
  · obtain ⟨t, first, member⟩ := word
    obtain ⟨rest, rfl⟩ := List.head?_eq_some_iff.1 first
    rw [Walk.statement_of_word walks clean member, Counters.quiet_eq silent, Parser.statementWith,
      Parser.accept_bind_mem _ member]
    refine Ends.cons ?_
    simp only [List.mem_cons, List.not_mem_nil, or_false] at member
    obtain same | same | same | same | same | same := member <;> simp only [same, Walk.afterWord]
    · exact Tracks.printStatement t (inner.rules rfl) passed rest reports clean.tail
    · exact Tracks.block silent inner _ _ _ clean.tail
    · exact Tracks.branch silent inner _ _ _ clean.tail
    · exact Tracks.whileLoop silent inner _ _ _ clean.tail
    · exact Tracks.forLoop silent inner _ _ _ clean.tail
    · exact Tracks.breakStatement t passed rest reports clean.tail
  · have absent : ∀ t ∈ left.head?,
        t.kind ∉ [Kind.printWord, .doWord, .ifWord, .whileWord, .forWord, .breakWord] :=
      fun t first member => word ⟨t, first, member⟩
    rw [Walk.statement_of_other walks clean absent, Parser.statementWith,
      Parser.accept_bind_not_mem _ absent]
    exact Tracks.expressionStatement silent (inner.rules rfl) passed left reports clean

end Compound

/-- At every depth the statements that are left track those of the list reader. -/
theorem statementWithin {tail : Tail} (n : Nat) {f : Counters} (depth : f.depth + n = nestingLimit)
    (silent : f.allowExpression = false) :
    Tracks tail f (Parser.statement n f.setting) (Walks.levels (n + 1)).statement := by
  induction n generalizing f with
  | zero => exact .nested_fail depth _
  | succ n ih =>
    have room : f.depth < nestingLimit := by omega
    have depth_eq : f.deeper.depth = f.depth + 1 := rfl
    have inner : (Walks.levels (n + 1)).TrackAt tail f.deeper.depth (Rules.within n)
        (Parser.statement n) := by
      refine ⟨Parser.advancing_within n, Parser.advancing_statement n, fun same => ?_,
        fun same => ?_⟩
      · exact Tracks.within n (by omega)
      · exact ih (by omega)
    exact .nested room (Tracks.simpleStatement silent inner)

end Tracks

end Scriptlet
