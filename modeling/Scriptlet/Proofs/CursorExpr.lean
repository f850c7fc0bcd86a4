import Scriptlet.Proofs.Cursor
import Scriptlet.Proofs.Progress

/-! Reading with an index tracks reading a list. A cursor in a text that a `finish` token closes
stands between the tokens it has passed and those that are left; every rule moves it as the list
reader drops tokens, and puts its counters back. So no walk over such a text has a defect. -/
namespace Scriptlet

def Clean (ts : List Token) : Prop :=
  ∀ t ∈ ts, t.kind ≠ .finish

namespace Clean

variable {t : Token} {ts used left : List Token}

theorem head (clean : Clean (t :: ts)) : t.kind ≠ .finish :=
  clean t List.mem_cons_self

theorem tail (clean : Clean (t :: ts)) : Clean ts :=
  fun u member => clean u (List.mem_cons_of_mem t member)

theorem rest (clean : Clean ts) (same : ts = used ++ left) : Clean left :=
  fun u member => clean u (by rw [same]; exact List.mem_append_right used member)

end Clean

/-- What stands after the tokens that are read: the first `finish` token, and others that do not
count. -/
structure Tail where
  closing : Token
  later : List Token
  closed : closing.kind = .finish

structure Counters where
  depth : Nat
  loopDepth : Nat
  bodyEnds : List (List Kind)
  allowExpression : Bool

namespace Counters

def deeper (f : Counters) : Counters := { f with depth := f.depth + 1 }

def looped (f : Counters) : Counters := { f with loopDepth := f.loopDepth + 1 }

def closedBy (f : Counters) (closers : List Kind) : Counters :=
  { f with bodyEnds := closers :: f.bodyEnds }

def setting (f : Counters) : Setting := ⟨f.loopDepth != 0, f.bodyEnds.headD []⟩

@[simp] theorem setting_looped (f : Counters) : f.looped.setting = f.setting.looped := rfl

end Counters

def Tail.cursor (tail : Tail) (f : Counters) (passed left : List Token)
    (reports : Reports) : Cursor :=
  { tokens := (passed ++ left ++ tail.closing :: tail.later).toArray
    current := passed.length
    depth := f.depth
    loopDepth := f.loopDepth
    bodyEnds := f.bodyEnds
    allowExpression := f.allowExpression
    foundExpression := false
    reports }

namespace Walk

section Bind

variable {α β : Type} {w : Walk α} {c c' : Cursor}

theorem bind_of_value {a : α} (g : α → Walk β) (result : w c = .value a c') :
    (w >>= g) c = g a c' := by
  simp only [bind, Walk.bind, result]

theorem bind_of_failure (g : α → Walk β) (result : w c = .failure c') :
    (w >>= g) c = .failure c' := by
  simp only [bind, Walk.bind, result]

end Bind

section Primitives

variable {tail : Tail} {f : Counters} {passed left : List Token} {reports : Reports} {t : Token}

theorem size_cursor (tail : Tail) (f : Counters) (passed left : List Token) (reports : Reports) :
    (tail.cursor f passed left reports).tokens.size =
      passed.length + left.length + tail.later.length + 1 := by
  simp only [Tail.cursor, List.size_toArray, List.length_append, List.length_cons]
  omega

theorem cursor_cons (tail : Tail) (f : Counters) (passed left : List Token) (reports : Reports)
    (t : Token) :
    tail.cursor f (passed ++ [t]) left reports =
      { tail.cursor f passed (t :: left) reports with current := passed.length + 1 } := by
  simp [Tail.cursor]

theorem peek_eq (tail : Tail) (f : Counters) (passed left : List Token) (reports : Reports) :
    peek (tail.cursor f passed left reports) =
      .value (left.head?.getD tail.closing) (tail.cursor f passed left reports) := by
  have size := size_cursor tail f passed left reports
  have present : (tail.cursor f passed left reports).tokens.size ≠ 0 := by omega
  have index : min (tail.cursor f passed left reports).current
      ((tail.cursor f passed left reports).tokens.size - 1) = passed.length := by
    have room : passed.length ≤ (tail.cursor f passed left reports).tokens.size - 1 := by omega
    exact Nat.min_eq_left room
  have found : (tail.cursor f passed left reports).tokens[passed.length]? =
      some (left.head?.getD tail.closing) := by
    cases left <;> simp [Tail.cursor]
  rw [peek, if_neg present, index, found]

theorem peek_cons (tail : Tail) (f : Counters) (passed left : List Token) (reports : Reports)
    (t : Token) :
    peek (tail.cursor f passed (t :: left) reports) =
      .value t (tail.cursor f passed (t :: left) reports) :=
  peek_eq tail f passed (t :: left) reports

theorem peek_nil (tail : Tail) (f : Counters) (passed : List Token) (reports : Reports) :
    peek (tail.cursor f passed [] reports) =
      .value tail.closing (tail.cursor f passed [] reports) :=
  peek_eq tail f passed [] reports

theorem previous_eq (tail : Tail) (f : Counters) (passed left : List Token) (reports : Reports)
    (t : Token) :
    previous (tail.cursor f (passed ++ [t]) left reports) =
      .value t (tail.cursor f (passed ++ [t]) left reports) := by
  have found : (tail.cursor f (passed ++ [t]) left reports).tokens[(passed ++ [t]).length - 1]? =
      some t := by
    simp [Tail.cursor]
  simp only [previous, Tail.cursor] at found ⊢
  rw [found]

theorem atEnd_nil : atEnd (tail.cursor f passed [] reports) =
    .value true (tail.cursor f passed [] reports) := by
  rw [atEnd, bind_of_value _ (peek_eq ..)]
  simp [tail.closed]
  rfl

theorem atEnd_cons (inside : t.kind ≠ .finish) : atEnd (tail.cursor f passed (t :: left) reports) =
    .value false (tail.cursor f passed (t :: left) reports) := by
  rw [atEnd, bind_of_value _ (peek_eq ..)]
  simp [inside]
  rfl

theorem previous_total (tail : Tail) (f : Counters) (passed left : List Token) (reports : Reports) :
    ∃ t, previous (tail.cursor f passed left reports) =
      .value t (tail.cursor f passed left reports) := by
  obtain rfl | ⟨before, t, rfl⟩ := List.eq_nil_or_concat passed
  · exact ⟨left.head?.getD tail.closing, by cases left <;> simp [previous, Tail.cursor]⟩
  · exact ⟨t, by rw [List.concat_eq_append]; exact previous_eq ..⟩

theorem advance_cons (inside : t.kind ≠ .finish) :
    advance (tail.cursor f passed (t :: left) reports) =
      .value t (tail.cursor f (passed ++ [t]) left reports) := by
  rw [advance, bind_of_value _ (atEnd_cons inside), ← previous_eq, cursor_cons]
  rfl

theorem advance_nil : ∃ t, advance (tail.cursor f passed [] reports) =
    .value t (tail.cursor f passed [] reports) := by
  rw [advance, bind_of_value _ atEnd_nil]
  exact previous_total ..

theorem check_nil (kind : Kind) : check kind (tail.cursor f passed [] reports) =
    .value false (tail.cursor f passed [] reports) := by
  rw [check, bind_of_value _ atEnd_nil]
  rfl

theorem check_cons (inside : t.kind ≠ .finish) (kind : Kind) :
    check kind (tail.cursor f passed (t :: left) reports) =
      .value (t.kind = kind) (tail.cursor f passed (t :: left) reports) := by
  rw [check, bind_of_value _ (atEnd_cons inside)]
  exact bind_of_value _ (peek_eq ..)

theorem matchKinds_nil (kinds : List Kind) : matchKinds kinds (tail.cursor f passed [] reports) =
    .value false (tail.cursor f passed [] reports) := by
  induction kinds with
  | nil => rfl
  | cons kind kinds ih =>
    rw [matchKinds, bind_of_value _ (check_nil kind)]
    exact ih

theorem matchKinds_of_mem {kinds : List Kind} (inside : t.kind ≠ .finish) (found : t.kind ∈ kinds) :
    matchKinds kinds (tail.cursor f passed (t :: left) reports) =
      .value true (tail.cursor f (passed ++ [t]) left reports) := by
  induction kinds with
  | nil => simp at found
  | cons kind kinds ih =>
    rw [matchKinds, bind_of_value _ (check_cons inside kind)]
    by_cases same : t.kind = kind
    · simp only [same, decide_true, if_true]
      exact bind_of_value _ (advance_cons inside)
    · simp only [same, decide_false, Bool.false_eq_true, if_false]
      exact ih ((List.mem_cons.1 found).resolve_left same)

theorem matchKinds_of_not_mem {kinds : List Kind} (inside : t.kind ≠ .finish)
    (absent : t.kind ∉ kinds) :
    matchKinds kinds (tail.cursor f passed (t :: left) reports) =
      .value false (tail.cursor f passed (t :: left) reports) := by
  induction kinds with
  | nil => rfl
  | cons kind kinds ih =>
    rw [List.mem_cons, not_or] at absent
    rw [matchKinds, bind_of_value _ (check_cons inside kind)]
    simp only [absent.1, decide_false, Bool.false_eq_true, if_false]
    exact ih absent.2

theorem nested_of_room {α : Type} (w : Walk α) (room : f.depth < nestingLimit) :
    w.nested (tail.cursor f passed left reports) =
      w.andThen leaveRule (tail.cursor f.deeper passed left reports) := by
  have below : ¬ nestingLimit ≤ (tail.cursor f passed left reports).depth := Nat.not_le_of_lt room
  rw [nested, bind_of_value (w := state) _ rfl, if_neg below]
  rfl

end Primitives

end Walk

namespace Parser

theorem atom_of_some {t : Token} {e : Expr} (atom : Expr.atom? t = some e) (ts : List Token) :
    Parser.atom (t :: ts) = ⟨some e, ts, []⟩ := by
  rw [Parser.atom, next_bind]
  simp only [List.head?_cons, Option.bind_some, atom, List.tail_cons]

theorem atom_of_none {t : Token} (none : Expr.atom? t = none) (ts : List Token) :
    Parser.atom (t :: ts) = ⟨Option.none, t :: ts, [⟨some t, .expression⟩]⟩ := by
  rw [Parser.atom, next_bind]
  simp only [List.head?_cons, Option.bind_some, none, Parser.fail]

end Parser

namespace Walk

section Primary

variable (inner : Walks) {c : Cursor} {t : Token}

theorem primary_of_atom {e : Expr} (shown : peek c = .value t c) (atom : Expr.atom? t = some e) :
    primary inner c = (advance >>= fun _ => pure e) c := by
  rw [primary, bind_of_value _ shown, atom]

theorem primary_of_paren (shown : peek c = .value t c) (paren : t.kind = .leftParen) :
    primary inner c =
      (advance >>= fun _ => inner.expression >>= fun e =>
        consume .rightParen .closingParen >>= fun _ => pure (Expr.group e)) c := by
  have none : Expr.atom? t = none := by simp [Expr.atom?, paren]
  rw [primary, bind_of_value _ shown, none]
  exact congrFun (if_pos paren) c

theorem primary_of_other (shown : peek c = .value t c) (none : Expr.atom? t = none)
    (other : t.kind ≠ .leftParen) : primary inner c = error t .expression c := by
  rw [primary, bind_of_value _ shown, none]
  exact congrFun (if_neg other) c

end Primary

end Walk

def outcome {α : Type} (value : Option α) (c : Cursor) : Arrival α :=
  match value with
  | some a => .value a c
  | none => .failure c

/-- A walk from a cursor ends as a reading step says: the cursor passes the tokens that the step
drops, and the complaints are reported. -/
def Ends {α : Type} (tail : Tail) (f : Counters) (passed left : List Token) (reports : Reports)
    (step : Step α) (result : Arrival α) : Prop :=
  ∃ used, left = used ++ step.rest ∧
    result = outcome step.value (tail.cursor f (passed ++ used) step.rest
      (reports ++ step.complaints.map (·.report tail.closing)))

/-- A walk does from every cursor what a reader does with the tokens that are left. -/
def Tracks {α : Type} (tail : Tail) (f : Counters) (p : Parser α) (w : Walk α) : Prop :=
  ∀ passed left reports, Clean left →
    Ends tail f passed left reports (p left) (w (tail.cursor f passed left reports))

namespace Ends

variable {α : Type} {tail : Tail} {f : Counters} {passed left : List Token} {reports : Reports}
  {step : Step α} {result : Arrival α} {t : Token}

theorem cons (ends : Ends tail f (passed ++ [t]) left reports step result) :
    Ends tail f passed (t :: left) reports step result := by
  obtain ⟨used, rfl, same⟩ := ends
  exact ⟨t :: used, rfl, by rw [same, List.append_assoc, List.singleton_append]⟩

theorem stay {value : Option α} {complaints : List Complaint}
    (same : result = outcome value (tail.cursor f passed left
      (reports ++ complaints.map (·.report tail.closing)))) :
    Ends tail f passed left reports ⟨value, left, complaints⟩ result :=
  ⟨[], rfl, by rw [same, List.append_nil]⟩

theorem pure (a : α) : Ends tail f passed left reports ⟨some a, left, []⟩
    (.value a (tail.cursor f passed left reports)) :=
  .stay (by rw [List.map_nil, List.append_nil]; rfl)

theorem bind {β : Type} {p : Parser α} {w : Walk α} {g : α → Parser β} {h : α → Walk β}
    (first : Ends tail f passed left reports (p left) (w (tail.cursor f passed left reports)))
    (next : ∀ a used reports', left = used ++ (p left).rest → (p left).value = some a →
      Ends tail f (passed ++ used) (p left).rest reports' (g a (p left).rest)
        (h a (tail.cursor f (passed ++ used) (p left).rest reports'))) :
    Ends tail f passed left reports ((p >>= g) left)
      ((w >>= h) (tail.cursor f passed left reports)) := by
  obtain ⟨used, same, result⟩ := first
  match read : p left with
  | ⟨none, rest, complaints⟩ =>
    rw [read] at same result
    rw [Parser.bind_of_none _ read, Walk.bind_of_failure _ result]
    exact ⟨used, same, rfl⟩
  | ⟨some a, rest, complaints⟩ =>
    rw [read] at same result next
    rw [Parser.bind_of_some _ read, Walk.bind_of_value _ result]
    obtain ⟨further, same', result'⟩ :=
      next a used (reports ++ complaints.map (·.report tail.closing)) same rfl
    refine ⟨used ++ further, ?_, ?_⟩
    · rw [List.append_assoc, ← same']
      exact same
    · rw [result', List.map_append, List.append_assoc, List.append_assoc]

theorem nested {w : Walk α} (room : f.depth < nestingLimit)
    (inside : Ends tail f.deeper passed left reports step
      (w (tail.cursor f.deeper passed left reports))) :
    Ends tail f passed left reports step (w.nested (tail.cursor f passed left reports)) := by
  obtain ⟨used, same, ended⟩ := inside
  refine ⟨used, same, ?_⟩
  rw [Walk.nested_of_room w room, Walk.andThen, ended]
  cases step.value <;> rfl

end Ends

namespace Tracks

variable {α β : Type} {tail : Tail} {f : Counters}

theorem pure (a : α) : Tracks tail f (Pure.pure a) (Pure.pure a) :=
  fun _ _ _ _ => .pure a

theorem bind {p : Parser α} {w : Walk α} {g : α → Parser β} {h : α → Walk β}
    (first : Tracks tail f p w) (next : ∀ a, Tracks tail f (g a) (h a)) :
    Tracks tail f (p >>= g) (w >>= h) := by
  intro passed left reports clean
  refine (first passed left reports clean).bind fun a used reports' same _ => ?_
  exact next a _ _ _ (clean.rest same)

theorem fail (m : Mistake) :
    Tracks tail f (Parser.fail m : Parser α) (Walk.peek >>= fun t => Walk.error t m) := by
  intro passed left reports _
  rw [Walk.bind_of_value _ (Walk.peek_eq ..)]
  exact .stay rfl

theorem complain (t : Token) (m : Mistake) :
    Tracks tail f (Parser.complain t m) (Walk.report t m) :=
  fun _ _ _ _ => .stay rfl

theorem accept_bind {kinds : List Kind} {g : Option Token → Parser β} {h : Bool → Walk β}
    (found : ∀ t, Tracks tail f (g (some t)) (h true))
    (absent : Tracks tail f (g none) (h false)) :
    Tracks tail f (Parser.accept kinds >>= g) (Walk.matchKinds kinds >>= h) := by
  intro passed left reports clean
  cases left with
  | nil =>
    rw [Parser.accept_bind_not_mem _ (by simp), Walk.bind_of_value _ (Walk.matchKinds_nil kinds)]
    exact absent passed [] reports clean
  | cons t left =>
    have inside := clean.head
    by_cases member : t.kind ∈ kinds
    · rw [Parser.accept_bind_mem _ member,
        Walk.bind_of_value _ (Walk.matchKinds_of_mem inside member)]
      exact (found t _ _ _ clean.tail).cons
    · rw [Parser.accept_bind_not_mem _ (by simpa using member),
        Walk.bind_of_value _ (Walk.matchKinds_of_not_mem inside member)]
      exact absent passed (t :: left) reports clean

theorem take_bind {kinds : List Kind} {g : Option Token → Parser β} {h : Token → Walk β}
    {h' : Walk β}
    (found : ∀ t, t.kind ∈ kinds → Tracks tail f (g (some t)) (h t))
    (absent : Tracks tail f (g none) h') :
    Tracks tail f (Parser.accept kinds >>= g)
      (Walk.matchKinds kinds >>= fun matched => if matched then Walk.previous >>= h else h') := by
  intro passed left reports clean
  cases left with
  | nil =>
    rw [Parser.accept_bind_not_mem _ (by simp), Walk.bind_of_value _ (Walk.matchKinds_nil kinds)]
    exact absent passed [] reports clean
  | cons t left =>
    have inside := clean.head
    by_cases member : t.kind ∈ kinds
    · rw [Parser.accept_bind_mem _ member,
        Walk.bind_of_value _ (Walk.matchKinds_of_mem inside member),
        if_pos rfl, Walk.bind_of_value _ (Walk.previous_eq ..)]
      exact (found t member _ _ _ clean.tail).cons
    · rw [Parser.accept_bind_not_mem _ (by simpa using member),
        Walk.bind_of_value _ (Walk.matchKinds_of_not_mem inside member)]
      exact absent passed (t :: left) reports clean

theorem expect (kind : Kind) (m : Mistake) :
    Tracks tail f (Parser.expect kind m) (Walk.consume kind m) := by
  intro passed left reports clean
  cases left with
  | nil =>
    rw [Parser.expect_of_other m (by simp), Walk.consume,
      Walk.bind_of_value _ (Walk.check_nil kind)]
    exact .stay (Walk.bind_of_value _ (Walk.peek_eq ..))
  | cons t left =>
    have inside := clean.head
    rw [Walk.consume, Walk.bind_of_value _ (Walk.check_cons inside kind)]
    by_cases same : t.kind = kind
    · rw [Parser.expect_of_kind m same]
      simp only [same, decide_true, if_true]
      rw [Walk.advance_cons inside]
      exact Ends.cons (.pure _)
    · rw [Parser.expect_of_other m (by simpa using same)]
      simp only [same, decide_false, Bool.false_eq_true, if_false]
      exact .stay (Walk.bind_of_value _ (Walk.peek_eq ..))

theorem nested_fail (deep : f.depth = nestingLimit) (w : Walk α) :
    Tracks tail f (Parser.fail .nesting) (Walk.nested w) := by
  intro passed left reports clean
  have stopped : Walk.nested w (tail.cursor f passed left reports) =
      (Walk.peek >>= fun t => Walk.error t .nesting) (tail.cursor f passed left reports) := by
    have limit : nestingLimit ≤ (tail.cursor f passed left reports).depth := Nat.le_of_eq deep.symm
    rw [Walk.nested, Walk.bind_of_value (w := Walk.state) _ rfl, if_pos limit]
  rw [stopped]
  exact Tracks.fail .nesting passed left reports clean

theorem nested {p : Parser α} {w : Walk α} (room : f.depth < nestingLimit)
    (inside : Tracks tail f.deeper p w) : Tracks tail f p (Walk.nested w) :=
  fun passed left reports clean => (inside passed left reports clean).nested room

end Tracks

structure Walks.Track (tail : Tail) (f : Counters) (rules : Rules) (walks : Walks) : Prop where
  expression : Tracks tail f rules.expression walks.expression
  choice : Tracks tail f rules.choice walks.choice
  signed : Tracks tail f rules.signed walks.signed

namespace Tracks

section Expressions

variable {tail : Tail} {f : Counters} {rules : Rules} {walks : Walks}

theorem primary (inner : walks.Track tail f rules) :
    Tracks tail f (Parser.primary rules) (Walk.primary walks) := by
  intro passed left reports clean
  have shown := Walk.peek_eq tail f passed left reports
  cases left with
  | nil =>
    have none : Expr.atom? tail.closing = none := by simp [Expr.atom?, tail.closed]
    have other : tail.closing.kind ≠ .leftParen := by simp [tail.closed]
    rw [Parser.primary, Parser.accept_bind_not_mem _ (by simp),
      Walk.primary_of_other walks shown none other]
    exact .stay rfl
  | cons t left =>
    have inside := clean.head
    by_cases paren : t.kind = .leftParen
    · rw [Parser.primary, Parser.accept_bind_mem _ (by simp [paren]),
        Walk.primary_of_paren walks shown paren, Walk.bind_of_value _ (Walk.advance_cons inside)]
      refine Ends.cons (Tracks.bind inner.expression (fun e => ?_) _ _ _ clean.tail)
      exact (Tracks.expect _ _).bind fun _ => .pure _
    · have alone : Parser.primary rules (t :: left) = Parser.atom (t :: left) :=
        Parser.accept_bind_not_mem _ (by simpa using paren)
      rw [alone]
      cases atom : Expr.atom? t with
      | none =>
        rw [Walk.primary_of_other walks shown atom paren, Parser.atom_of_none atom]
        exact .stay rfl
      | some e =>
        rw [Walk.primary_of_atom walks shown atom, Walk.bind_of_value _ (Walk.advance_cons inside),
          Parser.atom_of_some atom]
        exact Ends.cons (.pure _)

theorem stepped (inner : walks.Track tail f rules) :
    Tracks tail f (Parser.stepped rules) (Walk.stepped walks) :=
  (Tracks.primary inner).bind fun _ => .take_bind (fun _ _ => .pure _) (.pure _)

theorem signed (inner : walks.Track tail f rules) :
    Tracks tail f (Parser.signed rules) (Walk.signed walks) :=
  .take_bind (fun _ _ => inner.signed.bind fun _ => .pure _) (Tracks.stepped inner)

/-- A loop over operators that may go more often than there are tokens. -/
theorem chainLoop {kinds : List Kind} {join : Expr → Token → Expr → Expr} {operand : Parser Expr}
    {walk : Walk Expr} (orderly : operand.Orderly) (tracks : Tracks tail f operand walk)
    {count : Nat} {passed left : List Token} {reports : Reports} (e : Expr)
    (clean : Clean left) (enough : left.length < count) :
    Ends tail f passed left reports (Parser.chainRest kinds join operand e left)
      (Walk.chainLoop kinds join walk count e (tail.cursor f passed left reports)) := by
  induction count generalizing passed left reports e with
  | zero => omega
  | succ count ih =>
    rw [Walk.chainLoop]
    cases left with
    | nil =>
      rw [Parser.chainRest_of_other e (by simp), Walk.bind_of_value _ (Walk.matchKinds_nil kinds)]
      exact .pure _
    | cons t left =>
      have inside := clean.head
      by_cases member : t.kind ∈ kinds
      · rw [Parser.chainRest_of_operator orderly e member,
          Walk.bind_of_value _ (Walk.matchKinds_of_mem inside member), if_pos rfl,
          Walk.bind_of_value _ (Walk.previous_eq ..)]
        refine Ends.cons ((tracks _ _ _ clean.tail).bind fun right used reports' same _ => ?_)
        have shorter := orderly.length_le left
        refine ih _ (clean.tail.rest same) ?_
        rw [List.length_cons] at enough
        omega
      · rw [Parser.chainRest_of_other e (by simpa using member),
          Walk.bind_of_value _ (Walk.matchKinds_of_not_mem inside member)]
        exact .pure _

theorem chain {kinds : List Kind} {join : Expr → Token → Expr → Expr} {operand : Parser Expr}
    {walk : Walk Expr} (orderly : operand.Orderly) (tracks : Tracks tail f operand walk) :
    Tracks tail f (Parser.chain kinds join operand) (Walk.chain kinds join walk) := by
  refine tracks.bind fun e passed left reports clean => ?_
  rw [Walk.bind_of_value (w := Walk.state) _ rfl]
  refine chainLoop orderly tracks e clean ?_
  rw [Walk.size_cursor]
  omega

theorem disjunction (advancing : rules.Advancing) (inner : walks.Track tail f rules) :
    Tracks tail f (Parser.disjunction rules) (Walk.disjunction walks) := by
  have levels := Parser.advancing_levels advancing
  have product : Tracks tail f (Parser.product rules) (Walk.product walks) :=
    .chain levels.signed.toOrderly (Tracks.signed inner)
  have sum : Tracks tail f (Parser.sum rules) (Walk.sum walks) :=
    .chain levels.product.toOrderly product
  have order : Tracks tail f (Parser.order rules) (Walk.order walks) :=
    .chain levels.sum.toOrderly sum
  have equality : Tracks tail f (Parser.equality rules) (Walk.equality walks) :=
    .chain levels.order.toOrderly order
  have conjunction : Tracks tail f (Parser.conjunction rules) (Walk.conjunction walks) :=
    .chain levels.equality.toOrderly equality
  exact .chain levels.conjunction.toOrderly conjunction

theorem choice (advancing : rules.Advancing) (inner : walks.Track tail f rules) :
    Tracks tail f (Parser.choice rules) (Walk.choice walks) := by
  have operand := Tracks.disjunction advancing inner
  refine operand.bind fun condition => .accept_bind (fun _ => ?_) (.pure condition)
  exact operand.bind fun _ => (Tracks.expect _ _).bind fun _ => inner.choice.bind fun _ => .pure _

theorem assignment (advancing : rules.Advancing) (inner : walks.Track tail f rules) :
    Tracks tail f (Parser.assignment rules) (Walk.assignment walks) := by
  refine (Tracks.choice advancing inner).bind fun target =>
    .take_bind (fun operator _ => ?_) (.pure _)
  refine inner.expression.bind fun value => ?_
  cases target with
  | var name => exact .pure _
  | _ => exact (Tracks.complain operator .target).bind fun _ => .pure _

end Expressions

/-- At every depth the rules that are left track those of the list reader. -/
theorem within {tail : Tail} (n : Nat) {f : Counters} (depth : f.depth + n = nestingLimit) :
    (Walks.levels (n + 1)).Track tail f (Rules.within n) := by
  induction n generalizing f with
  | zero => exact ⟨.nested_fail depth _, .nested_fail depth _, .nested_fail depth _⟩
  | succ n ih =>
    have room : f.depth < nestingLimit := by omega
    have deeper : f.deeper.depth + n = nestingLimit := by
      have depth_eq : f.deeper.depth = f.depth + 1 := rfl
      omega
    have inner := ih deeper
    have advancing := Parser.advancing_within n
    exact ⟨.nested room (.assignment advancing inner), .nested room (.choice advancing inner),
      .nested room (.signed inner)⟩

end Tracks

end Scriptlet
