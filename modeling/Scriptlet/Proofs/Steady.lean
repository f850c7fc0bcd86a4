import Scriptlet.Proofs.CursorExpr

/-! Walks put their counters back. From any cursor, however a rule ends, it leaves the depth of rules
and of loops and the words that close bodies as it found them. The depth is looked at only where it
grows; but to make every rule that is begun too deep a defect changes nothing, so no rule ever is. -/
namespace Scriptlet

structure Cursor.Restored (c c' : Cursor) : Prop where
  tokens : c'.tokens = c.tokens
  depth : c'.depth = c.depth
  loopDepth : c'.loopDepth = c.loopDepth
  bodyEnds : c'.bodyEnds = c.bodyEnds

namespace Cursor.Restored

variable {c c' c'' : Cursor}

theorem refl (c : Cursor) : Restored c c := ⟨rfl, rfl, rfl, rfl⟩

theorem trans (first : Restored c c') (second : Restored c' c'') : Restored c c'' :=
  ⟨second.tokens.trans first.tokens, second.depth.trans first.depth,
    second.loopDepth.trans first.loopDepth, second.bodyEnds.trans first.bodyEnds⟩

end Cursor.Restored

/-- Wherever a walk arrives, with a value or without, the counters are those of the cursor. -/
def Arrival.Restores {α : Type} (c : Cursor) : Arrival α → Prop
  | .value _ c' => c.Restored c'
  | .failure c' => c.Restored c'
  | .defect => True

theorem Arrival.Restores.trans {α : Type} {c mid : Cursor} {result : Arrival α}
    (before : c.Restored mid) (after : result.Restores mid) : result.Restores c := by
  cases result with
  | value a c' => exact Cursor.Restored.trans before after
  | failure c' => exact Cursor.Restored.trans before after
  | defect => trivial

namespace Walk

variable {α β : Type}

/-- A walk that is a defect from a cursor that is too deep. -/
def lidded (w : Walk α) : Walk α :=
  fun c => if c.depth ≤ nestingLimit then w c else .defect

/-- A walk that puts the counters back, and another that does the same from cursors that are not too
deep. -/
structure Steady (w w' : Walk α) : Prop where
  restores : ∀ c, (w c).Restores c
  same : ∀ c, c.depth ≤ nestingLimit → w' c = w c

def Sure (w : Walk α) : Prop :=
  ∀ c c', w c ≠ .failure c'

namespace Sure

theorem pure (a : α) : Sure (pure a : Walk α) :=
  fun _ _ ends => nomatch ends

theorem bind {w : Walk α} {f : α → Walk β} (first : Sure w) (next : ∀ a, Sure (f a)) :
    Sure (w >>= f) := by
  intro c c' ends
  match read : w c with
  | .value a mid =>
    rw [bind_of_value f read] at ends
    exact next a mid c' ends
  | .failure mid => exact first c mid read
  | .defect => simp only [Bind.bind, Walk.bind, read, reduceCtorEq] at ends

theorem ite {w v : Walk α} {p : Prop} [Decidable p] (first : Sure w) (second : Sure v) :
    Sure (if p then w else v) := by
  split
  · exact first
  · exact second

theorem peek : Sure peek := by
  intro c c' ends
  rw [Walk.peek] at ends
  split at ends
  · cases ends
  · split at ends <;> cases ends

theorem previous : Sure previous := by
  intro c c' ends
  rw [Walk.previous] at ends
  split at ends <;> cases ends

theorem atEnd : Sure atEnd :=
  Sure.peek.bind fun _ => .pure _

theorem advance : Sure advance :=
  Sure.atEnd.bind fun _ => .ite .previous (.bind (fun _ _ ends => nomatch ends) fun _ => .previous)

theorem state : Sure state :=
  fun _ _ ends => nomatch ends

theorem anyCheck (kinds : List Kind) : Sure (anyCheck kinds) := by
  have check (kind : Kind) : Sure (check kind) :=
    Sure.atEnd.bind fun _ => .ite (.pure _) (Sure.peek.bind fun _ => .pure _)
  induction kinds with
  | nil => exact .pure false
  | cons kind kinds ih => exact (check kind).bind fun _ => .ite (.pure true) ih

theorem skip (count : Nat) : Sure (skip count) := by
  induction count with
  | zero => exact fun _ _ ends => nomatch ends
  | succ count ih =>
    refine Sure.atEnd.bind fun _ => .ite (.pure ()) (Sure.previous.bind fun _ => .ite (.pure ()) ?_)
    exact Sure.peek.bind fun _ => .ite (.pure ()) (Sure.advance.bind fun _ => ih)

theorem synchronize : Sure synchronize :=
  Sure.peek.bind fun _ => Sure.state.bind fun _ =>
    .ite (.pure ()) (Sure.advance.bind fun _ => Sure.state.bind fun _ => .skip _)

theorem entry (walks : Walks) : Sure (entry walks) := by
  intro c c' ends
  rw [Walk.entry, Walk.orElse] at ends
  split at ends
  · cases ends
  · exact (Sure.synchronize.bind fun _ => .pure none) _ _ ends
  · cases ends

theorem entries (walks : Walks) (closers : List Kind) (count : Nat) :
    Sure (entries walks closers count) := by
  induction count with
  | zero => exact fun _ _ ends => nomatch ends
  | succ count ih =>
    refine (Sure.anyCheck closers).bind fun _ => .ite (.pure []) (Sure.atEnd.bind fun _ => ?_)
    exact .ite (.pure []) ((Sure.entry walks).bind fun _ => ih.bind fun _ => .pure _)

end Sure

namespace Steady

variable {w w' : Walk α}

theorem of_restores (restores : ∀ c, (w c).Restores c) : Steady w w :=
  ⟨restores, fun _ _ => rfl⟩

theorem pure (a : α) : Steady (pure a : Walk α) (Pure.pure a) :=
  of_restores .refl

theorem bind {f f' : α → Walk β} (first : Steady w w') (next : ∀ a, Steady (f a) (f' a)) :
    Steady (w >>= f) (w' >>= f') where
  restores c := by
    have before := first.restores c
    match read : w c with
    | .value a mid =>
      rw [read] at before
      rw [bind_of_value f read]
      exact .trans before ((next a).restores mid)
    | .failure mid =>
      rw [read] at before
      rw [bind_of_failure f read]
      exact before
    | .defect => simp only [Bind.bind, Walk.bind, read, Arrival.Restores]
  same c low := by
    have before := first.restores c
    simp only [Bind.bind, Walk.bind, first.same c low]
    match read : w c with
    | .value a mid =>
      rw [read] at before
      exact (next a).same mid (Nat.le_trans (Nat.le_of_eq before.depth) low)
    | .failure mid => rfl
    | .defect => rfl

theorem map {g : α → β} (inside : Steady w w') : Steady (g <$> w) (g <$> w') :=
  inside.bind fun a => .pure (g a)

theorem ite {v v' : Walk α} {p : Prop} [Decidable p] (first : Steady w w') (second : Steady v v') :
    Steady (if p then w else v) (if p then w' else v') := by
  split
  · exact first
  · exact second

theorem update {f : Cursor → Cursor} (restores : ∀ c : Cursor, c.Restored (f c)) :
    Steady (update f) (Walk.update f) :=
  of_restores restores

theorem state : Steady state Walk.state :=
  of_restores .refl

theorem peek : Steady peek Walk.peek := by
  refine of_restores fun c => ?_
  rw [Walk.peek]
  split
  · trivial
  · split
    · exact .refl c
    · trivial

theorem previous : Steady previous Walk.previous := by
  refine of_restores fun c => ?_
  rw [Walk.previous]
  split
  · exact .refl c
  · trivial

theorem atEnd : Steady atEnd Walk.atEnd :=
  Steady.peek.bind fun _ => .pure _

theorem advance : Steady advance Walk.advance := by
  refine Steady.atEnd.bind fun _ => .ite .previous (.bind (.update fun c => ?_) fun _ => .previous)
  exact ⟨rfl, rfl, rfl, rfl⟩

theorem check (kind : Kind) : Steady (check kind) (Walk.check kind) :=
  Steady.atEnd.bind fun _ => .ite (.pure _) (Steady.peek.bind fun _ => .pure _)

theorem matchKinds (kinds : List Kind) : Steady (matchKinds kinds) (Walk.matchKinds kinds) := by
  induction kinds with
  | nil => exact .pure false
  | cons kind kinds ih =>
    exact (Steady.check kind).bind fun _ => .ite (Steady.advance.bind fun _ => .pure _) ih

theorem report (t : Token) (m : Mistake) : Steady (report t m) (Walk.report t m) :=
  .update fun _ => ⟨rfl, rfl, rfl, rfl⟩

theorem error (t : Token) (m : Mistake) : Steady (error t m : Walk α) (Walk.error t m) :=
  (Steady.report t m).bind fun _ => of_restores .refl

theorem consume (kind : Kind) (m : Mistake) : Steady (consume kind m) (Walk.consume kind m) :=
  (Steady.check kind).bind fun _ => .ite .advance (Steady.peek.bind fun _ => .error _ m)

theorem orElse {r : Walk Unit} (inside : Steady w w') (resume : Steady r r) :
    Steady (w.orElse r) (w'.orElse r) where
  restores c := by
    have before := inside.restores c
    rw [Walk.orElse]
    match read : w c with
    | .value a mid =>
      rw [read] at before
      exact before
    | .failure mid =>
      rw [read] at before
      exact .trans before ((resume.bind fun _ => .pure none).restores mid)
    | .defect => trivial
  same c low := by rw [Walk.orElse, Walk.orElse, inside.same c low]

theorem restores_andThen (inside : Steady w w') {leave : Walk Unit} {c entered : Cursor}
    (back : ∀ c', entered.Restored c' → ∃ left, leave c' = .value () left ∧ c.Restored left) :
    (w.andThen leave entered).Restores c := by
  have before := inside.restores entered
  rw [Walk.andThen]
  cases read : w entered with
  | value a c' =>
    rw [read] at before
    obtain ⟨left, last, restored⟩ := back c' before
    simp only [Walk.bind, last]
    exact restored
  | failure c' =>
    rw [read] at before
    obtain ⟨left, last, restored⟩ := back c' before
    simp only [Walk.bind, last]
    exact restored
  | defect => trivial

theorem nested_of_deep {c : Cursor} (deep : nestingLimit ≤ c.depth) :
    w.nested c = (Walk.peek >>= fun t => Walk.error t .nesting) c := by
  rw [Walk.nested, bind_of_value (w := Walk.state) _ rfl, if_pos deep]

theorem nested_of_low {c : Cursor} (room : ¬ nestingLimit ≤ c.depth) :
    w.nested c = w.andThen leaveRule { c with depth := c.depth + 1 } := by
  rw [Walk.nested, bind_of_value (w := Walk.state) _ rfl, if_neg room]
  rfl

/-- A rule one level deeper comes back to the level it was on, and is not begun too deep. -/
theorem nested (inside : Steady w w') : Steady w.nested w'.lidded.nested.lidded where
  restores c := by
    by_cases deep : nestingLimit ≤ c.depth
    · rw [nested_of_deep deep]
      exact (Steady.peek.bind fun t => .error t .nesting).restores c
    · rw [nested_of_low deep]
      refine inside.restores_andThen fun c' restored => ?_
      have depth : c'.depth = c.depth + 1 := restored.depth
      exact ⟨{ c' with depth := c.depth }, by rw [leaveRule, depth],
        restored.tokens, rfl, restored.loopDepth, restored.bodyEnds⟩
  same c low := by
    rw [lidded, if_pos low]
    by_cases deep : nestingLimit ≤ c.depth
    · rw [nested_of_deep deep, nested_of_deep deep]
    · have deeper : c.depth + 1 ≤ nestingLimit := Nat.lt_of_not_le deep
      have begun : w'.lidded { c with depth := c.depth + 1 } = w { c with depth := c.depth + 1 } := by
        rw [lidded, if_pos deeper, inside.same _ deeper]
      rw [nested_of_low deep, nested_of_low deep, Walk.andThen, Walk.andThen, begun]

end Steady

end Walk

structure Walks.Steady (walks walks' : Walks) : Prop where
  expression : walks.expression.Steady walks'.expression
  choice : walks.choice.Steady walks'.choice
  signed : walks.signed.Steady walks'.signed
  statement : walks.statement.Steady walks'.statement

namespace Walk.Steady

section Expressions

variable {walks walks' : Walks}

theorem primary (inner : walks.Steady walks') : Steady (primary walks) (Walk.primary walks') := by
  refine Steady.peek.bind fun token => ?_
  cases Expr.atom? token with
  | some e => exact Steady.advance.bind fun _ => .pure e
  | none =>
    refine .ite ?_ (.error token .expression)
    exact Steady.advance.bind fun _ => inner.expression.bind fun _ =>
      (Steady.consume _ _).bind fun _ => .pure _

theorem stepped (inner : walks.Steady walks') : Steady (stepped walks) (Walk.stepped walks') :=
  (Steady.primary inner).bind fun _ => (Steady.matchKinds _).bind fun _ =>
    .ite (Steady.previous.bind fun _ => .pure _) (.pure _)

theorem signed (inner : walks.Steady walks') : Steady (signed walks) (Walk.signed walks') :=
  (Steady.matchKinds _).bind fun _ =>
    .ite (Steady.previous.bind fun _ => inner.signed.bind fun _ => .pure _) (.stepped inner)

section Chain

variable {kinds : List Kind} {join : Expr → Token → Expr → Expr} {operand operand' : Walk Expr}

theorem chainLoop (inside : Steady operand operand') (count : Nat) (left : Expr) :
    Steady (chainLoop kinds join operand count left)
      (Walk.chainLoop kinds join operand' count left) := by
  induction count generalizing left with
  | zero => exact of_restores fun _ => trivial
  | succ count ih =>
    refine (Steady.matchKinds kinds).bind fun _ => .ite ?_ (.pure left)
    exact Steady.previous.bind fun _ => inside.bind fun _ => ih _

theorem chain (inside : Steady operand operand') :
    Steady (chain kinds join operand) (Walk.chain kinds join operand') :=
  inside.bind fun left => Steady.state.bind fun _ => .chainLoop inside _ left

end Chain

theorem disjunction (inner : walks.Steady walks') :
    Steady (disjunction walks) (Walk.disjunction walks') :=
  .chain (.chain (.chain (.chain (.chain (.chain (.signed inner))))))

theorem choice (inner : walks.Steady walks') : Steady (choice walks) (Walk.choice walks') := by
  have operand := Steady.disjunction inner
  refine operand.bind fun _ => (Steady.matchKinds _).bind fun _ => .ite ?_ (.pure _)
  exact operand.bind fun _ => (Steady.consume _ _).bind fun _ => inner.choice.bind fun _ => .pure _

theorem assignment (inner : walks.Steady walks') :
    Steady (assignment walks) (Walk.assignment walks') := by
  refine (Steady.choice inner).bind fun target => (Steady.matchKinds _).bind fun _ =>
    .ite ?_ (.pure _)
  refine Steady.previous.bind fun operator => inner.expression.bind fun value => ?_
  cases target with
  | var name => exact .pure _
  | _ => exact (Steady.report operator .target).bind fun _ => .pure _

end Expressions

section Statements

theorem matchWord (kind : Kind) : Steady (matchWord kind) (Walk.matchWord kind) := by
  refine (Steady.matchKinds _).bind fun _ =>
    .ite (.bind (.update fun c => ?_) fun _ => .pure true) (.pure false)
  exact ⟨rfl, rfl, rfl, rfl⟩

theorem skip (count : Nat) : Steady (skip count) (Walk.skip count) := by
  induction count with
  | zero => exact of_restores fun _ => trivial
  | succ count ih =>
    refine Steady.atEnd.bind fun _ => .ite (.pure ()) (Steady.previous.bind fun _ => ?_)
    refine .ite (.pure ()) (Steady.peek.bind fun _ => .ite (.pure ()) ?_)
    exact Steady.advance.bind fun _ => ih

theorem synchronize : Steady synchronize Walk.synchronize :=
  Steady.peek.bind fun _ => Steady.state.bind fun _ =>
    .ite (.pure ()) (Steady.advance.bind fun _ => Steady.state.bind fun _ => .skip _)

variable {walks walks' : Walks}

theorem declaration (inner : walks.Steady walks') :
    Steady (declaration walks) (Walk.declaration walks') := by
  refine (Steady.consume _ _).bind fun _ => (Steady.matchKinds _).bind fun matched => ?_
  cases matched with
  | true =>
    exact (Steady.map inner.expression).bind fun _ => (Steady.consume _ _).bind fun _ => .pure _
  | false => exact (Steady.pure none).bind fun _ => (Steady.consume _ _).bind fun _ => .pure _

theorem printStatement (inner : walks.Steady walks') :
    Steady (printStatement walks) (Walk.printStatement walks') :=
  Steady.previous.bind fun _ => inner.expression.bind fun _ =>
    (Steady.consume _ _).bind fun _ => .pure _

theorem expressionStatement (inner : walks.Steady walks') :
    Steady (expressionStatement walks) (Walk.expressionStatement walks') := by
  have bare : Steady endsBare Walk.endsBare := Steady.state.bind fun _ => .ite .atEnd (.pure false)
  refine inner.expression.bind fun _ => bare.bind fun _ =>
    .ite (.bind (.update fun c => ?_) fun _ => .pure _) ((Steady.consume _ _).bind fun _ => .pure _)
  exact ⟨rfl, rfl, rfl, rfl⟩

theorem breakStatement : Steady breakStatement Walk.breakStatement := by
  have ending (keyword : Token) : Steady
      (Walk.consume .semicolon .breakEnd >>= fun _ => Pure.pure (Stmt.leave keyword))
      (Walk.consume .semicolon .breakEnd >>= fun _ => Pure.pure (Stmt.leave keyword)) :=
    (Steady.consume _ _).bind fun _ => .pure _
  exact Steady.previous.bind fun keyword => Steady.state.bind fun _ =>
    .ite ((Steady.report _ _).bind fun _ => ending keyword) (ending keyword)

theorem entry (inner : walks.Steady walks') : Steady (entry walks) (Walk.entry walks') := by
  have item : Steady (Walk.item walks) (Walk.item walks') :=
    (Steady.matchWord _).bind fun _ => .ite (.declaration inner) inner.statement
  exact item.orElse .synchronize

theorem entries (inner : walks.Steady walks') (closers : List Kind) (count : Nat) :
    Steady (entries walks closers count) (Walk.entries walks' closers count) := by
  have anyCheck (kinds : List Kind) : Steady (Walk.anyCheck kinds) (Walk.anyCheck kinds) := by
    induction kinds with
    | nil => exact .pure false
    | cons kind kinds ih => exact (Steady.check kind).bind fun _ => .ite (.pure true) ih
  induction count with
  | zero => exact of_restores fun _ => trivial
  | succ count ih =>
    refine (anyCheck closers).bind fun _ => .ite (.pure []) (Steady.atEnd.bind fun _ => ?_)
    exact .ite (.pure []) ((Steady.entry inner).bind fun _ => ih.bind fun _ => .pure _)

theorem body_eq (walks : Walks) (closers : List Kind) (c : Cursor) :
    Walk.body walks closers c =
      (Walk.entries walks closers c.tokens.size >>= fun found =>
        Walk.update (fun c => { c with bodyEnds := c.bodyEnds.tail }) >>= fun _ =>
          Pure.pure (found.filterMap id)) { c with bodyEnds := closers :: c.bodyEnds } := rfl

theorem body (inner : walks.Steady walks') (closers : List Kind) :
    Steady (body walks closers) (Walk.body walks' closers) where
  restores c := by
    have before := (Steady.entries inner closers c.tokens.size).restores
      { c with bodyEnds := closers :: c.bodyEnds }
    rw [body_eq]
    match read : Walk.entries walks closers c.tokens.size
        { c with bodyEnds := closers :: c.bodyEnds } with
    | .value found c' =>
      rw [read] at before
      rw [bind_of_value _ read]
      exact ⟨before.tokens, before.depth, before.loopDepth, congrArg List.tail before.bodyEnds⟩
    | .failure c' => exact absurd read (Sure.entries walks closers c.tokens.size _ c')
    | .defect => simp only [Bind.bind, Walk.bind, read, Arrival.Restores]
  same c low := by
    have begun := (Steady.entries inner closers c.tokens.size).same
      { c with bodyEnds := closers :: c.bodyEnds } low
    rw [body_eq, body_eq]
    simp only [Bind.bind, Walk.bind, begun]

theorem block (inner : walks.Steady walks') : Steady (block walks) (Walk.block walks') :=
  (Steady.body inner _).bind fun _ => (Steady.consume _ _).bind fun _ => .pure _

theorem branch (inner : walks.Steady walks') : Steady (branch walks) (Walk.branch walks') := by
  have part := Steady.body inner
  refine inner.expression.bind fun _ => (Steady.consume _ _).bind fun _ => (part _).bind fun _ => ?_
  refine (Steady.matchKinds _).bind fun matched => ?_
  cases matched with
  | true => exact (part _).bind fun _ => (Steady.consume _ _).bind fun _ => .pure _
  | false => exact (Steady.pure []).bind fun _ => (Steady.consume _ _).bind fun _ => .pure _

theorem loopBody_eq (walks : Walks) (c : Cursor) :
    Walk.loopBody walks c =
      walks.statement.andThen leaveLoop { c with loopDepth := c.loopDepth + 1 } := rfl

theorem loopBody (inner : walks.Steady walks') :
    Steady (loopBody walks) (Walk.loopBody walks') where
  restores c := by
    rw [loopBody_eq]
    refine inner.statement.restores_andThen fun c' restored => ?_
    have loopDepth : c'.loopDepth = c.loopDepth + 1 := restored.loopDepth
    exact ⟨{ c' with loopDepth := c.loopDepth }, by rw [leaveLoop, loopDepth],
      restored.tokens, restored.depth, rfl, restored.bodyEnds⟩
  same c low := by
    have begun := inner.statement.same { c with loopDepth := c.loopDepth + 1 } low
    rw [loopBody_eq, loopBody_eq, Walk.andThen, Walk.andThen, begun]

theorem whileLoop (inner : walks.Steady walks') :
    Steady (whileLoop walks) (Walk.whileLoop walks') :=
  inner.expression.bind fun _ => (Steady.loopBody inner).bind fun _ => .pure _

theorem initialStatement (inner : walks.Steady walks') :
    Steady (initialStatement walks) (Walk.initialStatement walks') :=
  (Steady.matchKinds _).bind fun _ => .ite (.pure none) ((Steady.matchKinds _).bind fun _ =>
    .ite (.map (.declaration inner)) (.map (.expressionStatement inner)))

theorem optionalExpression (inner : walks.Steady walks') (closer : Kind) :
    Steady (optionalExpression walks closer) (Walk.optionalExpression walks' closer) :=
  (Steady.check closer).bind fun _ => .ite (.pure none) (.map inner.expression)

theorem forLoop (inner : walks.Steady walks') : Steady (forLoop walks) (Walk.forLoop walks') :=
  (Steady.consume _ _).bind fun _ => (Steady.initialStatement inner).bind fun _ =>
    (Steady.optionalExpression inner _).bind fun _ => (Steady.consume _ _).bind fun _ =>
    (Steady.optionalExpression inner _).bind fun _ => (Steady.consume _ _).bind fun _ =>
    (Steady.loopBody inner).bind fun _ => .pure _

theorem statement (inner : walks.Steady walks') :
    Steady (statement walks) (Walk.statement walks') :=
  (Steady.matchWord _).bind fun _ => .ite (.printStatement inner) <|
    (Steady.matchWord _).bind fun _ => .ite (.block inner) <|
    (Steady.matchWord _).bind fun _ => .ite (.branch inner) <|
    (Steady.matchWord _).bind fun _ => .ite (.whileLoop inner) <|
    (Steady.matchWord _).bind fun _ => .ite (.forLoop inner) <|
    (Steady.matchWord _).bind fun _ => .ite .breakStatement (.expressionStatement inner)

end Statements

end Walk.Steady

namespace Walks

/-- The rules, where one that is begun too deep is a defect, before it counts its level and after. -/
def lidded : Nat → Walks
  | 0 => ⟨.defect, .defect, .defect, .defect⟩
  | n + 1 =>
    let inner := lidded n
    ⟨(Walk.assignment inner).lidded.nested.lidded, (Walk.choice inner).lidded.nested.lidded,
      (Walk.signed inner).lidded.nested.lidded, (Walk.statement inner).lidded.nested.lidded⟩

theorem levels_steady (n : Nat) : (levels n).Steady (lidded n) := by
  induction n with
  | zero =>
    have nowhere {α : Type} : (Walk.defect : Walk α).Steady .defect := .of_restores fun _ => trivial
    exact ⟨nowhere, nowhere, nowhere, nowhere⟩
  | succ n ih => exact ⟨.nested (.assignment ih), .nested (.choice ih), .nested (.signed ih),
      .nested (.statement ih)⟩

end Walks

end Scriptlet
