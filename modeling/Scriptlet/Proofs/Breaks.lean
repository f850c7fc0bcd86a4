import Scriptlet.Proofs.Continuation
import Scriptlet.Proofs.Nesting
import Scriptlet.Proofs.Places

/-! Breaks and the loops around them. The reader knows only whether it is inside a loop when it meets
a break, and a break inside is read long before the loop around it is a tree. Each rule is told which
breaks its tree holds, and that among these exactly the ones without a loop around them were
complained about. So a text without a complaint has no break that could end a run in silence. A loop
reads its body in another setting, so the statements that hold others are gone through here on their
own. -/
namespace Scriptlet

/-- A break in a tree, and whether a loop of the tree is around it. -/
structure Break where
  keyword : Token
  enclosed : Bool
deriving DecidableEq

def Break.enclose (b : Break) : Break :=
  { b with enclosed := true }

namespace Stmt

mutual

def breaks : Stmt → List Break
  | .expr _ => []
  | .print _ _ => []
  | .declare _ _ => []
  | .block body => allBreaks body
  | .branch _ consequent alternate => allBreaks consequent ++ allBreaks alternate
  | .loop _ body => body.breaks.map Break.enclose
  | .leave keyword => [⟨keyword, false⟩]

def allBreaks : List Stmt → List Break
  | [] => []
  | s :: rest => s.breaks ++ allBreaks rest

end

theorem allBreaks_append (xs ys : List Stmt) :
    allBreaks (xs ++ ys) = allBreaks xs ++ allBreaks ys := by
  induction xs with
  | nil => rfl
  | cons s xs ih => simp only [List.cons_append, allBreaks, ih, List.append_assoc]

theorem breaks_counting (initial : Option Stmt) (condition increment : Option Expr) (body : Stmt) :
    (counting initial condition increment body).breaks =
      allBreaks initial.toList ++ body.breaks.map Break.enclose := by
  cases increment <;> simp [counting, breaks, allBreaks, allBreaks_append]

mutual

theorem leaves_of_breaks : (s : Stmt) → (∀ b ∈ s.breaks, b.enclosed = true) → s.leaves = false
  | .expr _, _ => rfl
  | .print _ _, _ => rfl
  | .declare _ _, _ => rfl
  | .block body, enclosed => anyLeaves_of_breaks body enclosed
  | .branch _ consequent alternate, enclosed => by
    rw [breaks, List.forall_mem_append] at enclosed
    rw [leaves, anyLeaves_of_breaks consequent enclosed.1, anyLeaves_of_breaks alternate enclosed.2]
    rfl
  | .loop _ _, _ => rfl
  | .leave keyword, enclosed => by simp [breaks] at enclosed

theorem anyLeaves_of_breaks : (body : List Stmt) → (∀ b ∈ allBreaks body, b.enclosed = true) →
    anyLeaves body = false
  | [], _ => rfl
  | s :: rest, enclosed => by
    rw [allBreaks, List.forall_mem_append] at enclosed
    rw [anyLeaves, leaves_of_breaks s enclosed.1, anyLeaves_of_breaks rest enclosed.2]
    rfl

end

end Stmt

def Parsed.breaks : Parsed → List Break
  | .program entries => Stmt.allBreaks (entries.filterMap id)
  | .expression _ => []

/-- What is complained about fits the breaks that were read, inside a loop or outside: their keywords
were taken, every stray break was taken as well, and the breaks among the stray ones are those without
a loop around them. -/
structure Settled (inLoop : Bool) (taken : List Token) (cs : List Complaint) (bs : List Break) :
    Prop where
  keywords : ∀ b ∈ bs, b.keyword ∈ taken
  strays : ∀ c ∈ cs, c.mistake = .strayBreak → ∃ t ∈ taken, c.token? = some t
  agree : ∀ b ∈ bs, ⟨some b.keyword, .strayBreak⟩ ∈ cs ↔ (inLoop || b.enclosed) = false

namespace Settled

variable {inLoop : Bool} {taken : List Token} {cs : List Complaint} {bs : List Break}

theorem subset (settled : Settled inLoop taken cs bs) {fewer : List Break} (le : fewer ⊆ bs) :
    Settled inLoop taken cs fewer where
  keywords b member := settled.keywords b (le member)
  strays := settled.strays
  agree b member := settled.agree b (le member)

theorem silent (taken : List Token) (other : ∀ c ∈ cs, c.mistake ≠ .strayBreak) :
    Settled inLoop taken cs [] where
  keywords := by simp
  strays c member same := absurd same (other c member)
  agree := by simp

theorem nothing (taken : List Token) : Settled inLoop taken [] [] :=
  .silent taken (by simp)

theorem append (first : Settled inLoop taken cs bs) {taken' : List Token} {cs' : List Complaint}
    {bs' : List Break} (second : Settled inLoop taken' cs' bs')
    (apart : ∀ t ∈ taken, t ∉ taken') :
    Settled inLoop (taken ++ taken') (cs ++ cs') (bs ++ bs') where
  keywords b member := by
    obtain early | late := List.mem_append.1 member
    · exact List.mem_append_left _ (first.keywords b early)
    · exact List.mem_append_right _ (second.keywords b late)
  strays c member same := by
    obtain early | late := List.mem_append.1 member
    · obtain ⟨t, before, token⟩ := first.strays c early same
      exact ⟨t, List.mem_append_left _ before, token⟩
    · obtain ⟨t, after, token⟩ := second.strays c late same
      exact ⟨t, List.mem_append_right _ after, token⟩
  agree b member := by
    rw [List.mem_append]
    obtain early | late := List.mem_append.1 member
    · rw [← first.agree b early, or_iff_left]
      intro stray
      obtain ⟨t, after, token⟩ := second.strays _ stray rfl
      obtain rfl := Option.some.inj token
      exact apart _ (first.keywords b early) after
    · rw [← second.agree b late, or_iff_right]
      intro stray
      obtain ⟨t, before, token⟩ := first.strays _ stray rfl
      obtain rfl := Option.some.inj token
      exact apart _ before (second.keywords b late)

theorem inside {t : Token} {x : Bool} (settled : Settled true taken cs [⟨t, x⟩]) (y : Bool) :
    Settled true taken cs [⟨t, y⟩] where
  keywords := by simpa using settled.keywords
  strays := settled.strays
  agree := by simpa using settled.agree

theorem enclose (settled : Settled true taken cs bs) :
    Settled inLoop taken cs (bs.map Break.enclose) where
  keywords := List.forall_mem_map.2 settled.keywords
  strays := settled.strays
  agree := List.forall_mem_map.2 fun b member => by simpa [Break.enclose] using settled.agree b member

end Settled

namespace Parser

variable {α β : Type} {inLoop : Bool} {before : List Break} {p : Parser α} {after : α → List Break}

/-- If what came before is settled with some breaks, it stays settled through this reader, with the
breaks that go with the value. -/
def Tallies (inLoop : Bool) (before : List Break) (p : Parser α) (after : α → List Break) : Prop :=
  ∀ ts taken cs, (taken ++ ts).Nodup → Settled inLoop taken cs before →
    ∃ used, ts = used ++ (p ts).rest ∧
      Settled inLoop (taken ++ used) (cs ++ (p ts).complaints) ((p ts).value.elim [] after)

def Quiet (p : Parser α) : Prop :=
  ∀ inLoop before, Tallies inLoop before p fun _ => before

namespace Tallies

theorem weaken (tallies : Tallies inLoop before p after) {more : List Break}
    (given : before ⊆ more) : Tallies inLoop more p after :=
  fun ts taken cs fresh settled => tallies ts taken cs fresh (settled.subset given)

theorem pure {a : α} (kept : after a ⊆ before) : Tallies inLoop before (pure a) after := by
  intro ts taken cs fresh settled
  exact ⟨[], rfl, by simpa [pure_apply] using settled.subset kept⟩

theorem bind {f : α → Parser β} {last : β → List Break} (first : Tallies inLoop before p after)
    (next : ∀ a, Tallies inLoop (after a) (f a) last) : Tallies inLoop before (p >>= f) last := by
  intro ts taken cs fresh settled
  obtain ⟨used, cut, whole⟩ := first ts taken cs fresh settled
  match read : p ts with
  | ⟨none, mid, complaints⟩ =>
    rw [read] at cut whole
    rw [bind_of_none f read]
    exact ⟨used, cut, whole⟩
  | ⟨some a, mid, complaints⟩ =>
    rw [read] at cut whole
    rw [bind_of_some f read]
    have further : ((taken ++ used) ++ mid).Nodup := by
      rwa [List.append_assoc, ← show ts = used ++ mid from cut]
    obtain ⟨used', cut', whole'⟩ := next a mid _ _ further whole
    refine ⟨used ++ used', ?_, ?_⟩
    · rw [List.append_assoc, ← cut']
      exact cut
    · rw [← List.append_assoc, ← List.append_assoc]
      exact whole'

/-- It is enough to look at a reader alone: what came before is about other tokens. -/
theorem of_alone (alone : ∀ ts : List Token, ts.Nodup → ∃ used, ts = used ++ (p ts).rest ∧
      Settled inLoop used (p ts).complaints ((p ts).value.elim [] after)) :
    Tallies inLoop before p fun a => before ++ after a := by
  intro ts taken cs fresh settled
  obtain ⟨-, own, apart⟩ := List.nodup_append.1 fresh
  obtain ⟨used, cut, whole⟩ := alone ts own
  refine ⟨used, cut, ?_⟩
  have separate : ∀ t ∈ taken, t ∉ used := fun t early late =>
    apart t early t (cut ▸ List.mem_append_left _ late) rfl
  have joined := settled.append whole separate
  cases value : (p ts).value with
  | none => exact joined.subset (List.nil_subset _)
  | some a =>
    rw [value] at joined
    exact joined

theorem frame (tallies : Tallies inLoop [] p after) :
    Tallies inLoop before p fun a => before ++ after a :=
  of_alone fun ts fresh => tallies ts [] [] fresh (.nothing [])

theorem looped (tallies : Tallies true [] p after) :
    Tallies inLoop [] p fun a => (after a).map Break.enclose := by
  refine of_alone fun ts fresh => ?_
  obtain ⟨used, cut, whole⟩ := tallies ts [] [] fresh (.nothing [])
  refine ⟨used, cut, ?_⟩
  cases value : (p ts).value with
  | none => exact (whole.enclose).subset (List.nil_subset _)
  | some a =>
    rw [value] at whole
    exact whole.enclose

/-- A token that was just taken was not complained about, as if it were a break with a loop around
it. -/
theorem accept_bind {kinds : List Kind} {f : Option Token → Parser β} {last : β → List Break}
    (found : ∀ t, Tallies inLoop (before ++ [⟨t, true⟩]) (f (some t)) last)
    (none : Tallies inLoop before (f none) last) :
    Tallies inLoop before (accept kinds >>= f) last := by
  intro ts taken cs fresh settled
  match ts with
  | [] =>
    rw [accept_bind_not_mem f (by simp)]
    exact none [] taken cs fresh settled
  | t :: ts =>
    by_cases member : t.kind ∈ kinds
    · rw [accept_bind_mem f member]
      have new : ∀ u ∈ taken, u ∉ [t] := fun u old same =>
        (List.nodup_append.1 fresh).2.2 u old t List.mem_cons_self (List.mem_singleton.1 same)
      have reserved : Settled inLoop [t] [] [⟨t, true⟩] := ⟨by simp, by simp, by simp⟩
      have both := settled.append reserved new
      rw [List.append_nil] at both
      obtain ⟨used, cut, whole⟩ := found t ts (taken ++ [t]) cs (by simpa using fresh) both
      exact ⟨t :: used, congrArg (t :: ·) cut, by simpa using whole⟩
    · have absent : ∀ u ∈ (t :: ts).head?, u.kind ∉ kinds := by simpa using member
      rw [accept_bind_not_mem f absent]
      exact none (t :: ts) taken cs fresh settled

theorem recover {resume : List Token → List Token} (tallies : Tallies inLoop before p after)
    (resumed : ∀ ts, resume ts <:+ ts) :
    Tallies inLoop before (recover resume p) fun found => found.elim [] after := by
  intro ts taken cs fresh settled
  obtain ⟨used, cut, whole⟩ := tallies ts taken cs fresh settled
  match read : p ts with
  | ⟨some a, rest, complaints⟩ =>
    rw [read] at cut whole
    simp only [Parser.recover, read]
    exact ⟨used, cut, whole⟩
  | ⟨none, rest, complaints⟩ =>
    rw [read] at cut whole
    simp only [Parser.recover, read]
    obtain ⟨dropped, same⟩ := resumed rest
    have whole' : ts = used ++ (dropped ++ resume rest) := by rw [same]; exact cut
    rw [whole', ← List.append_assoc, ← List.append_assoc] at fresh
    refine ⟨used ++ dropped, by rw [whole', List.append_assoc], ?_⟩
    have apart : ∀ t ∈ taken ++ used, t ∉ dropped := fun t early late =>
      (List.nodup_append.1 (List.nodup_append.1 fresh).1).2.2 t early t late rfl
    simpa using whole.append (.nothing dropped) apart

end Tallies

theorem Tallies.of_keeps (orderly : Orderly p)
    (keeps : Keeps (· ≠ .strayBreak) (fun a => after a = []) p) :
    Tallies inLoop [] p after := by
  refine .of_alone fun ts _ => ?_
  obtain ⟨used, cut⟩ := orderly.suffix ts
  refine ⟨used, cut.symm, (Settled.silent used (keeps.mistakes ts)).subset ?_⟩
  cases value : (p ts).value with
  | none => exact List.Subset.refl _
  | some a => simp [keeps.values ts a value]

theorem Quiet.of_keeps {Q : α → Prop} (orderly : Orderly p)
    (keeps : Keeps (· ≠ .strayBreak) Q p) : Quiet p := by
  intro inLoop before
  have silent : Tallies inLoop [] p fun _ => [] :=
    .of_keeps orderly (keeps.imp (fun _ => id) fun _ _ => rfl)
  have framed : Tallies inLoop before p fun _ => before ++ [] := silent.frame
  rwa [List.append_nil] at framed

theorem quiet_expect (kind : Kind) {m : Mistake} (other : m ≠ .strayBreak) :
    Quiet (expect kind m) :=
  .of_keeps (.expect kind m)
    (Keeps.accept_bind (R := fun _ => True) (fun _ _ => .pure trivial) (.fail other))

end Parser

theorem Stmt.allBreaks_eq_nil {body : List Stmt} (none : ∀ s ∈ body, s.breaks = []) :
    allBreaks body = [] := by
  induction body with
  | nil => rfl
  | cons s rest ih =>
    rw [List.forall_mem_cons] at none
    rw [allBreaks, none.1, ih none.2, List.append_nil]

def TreeRelation.breakless : TreeRelation where
  __ := TreeRelation.same
  stmt _ s r := s.breaks = [] ∧ s = r
  stmt_mono _ := id
  expression := by
    rintro _ _ _ rfl
    exact ⟨rfl, rfl⟩
  print := by
    rintro _ _ _ _ _ rfl _ rfl
    exact ⟨rfl, rfl⟩
  declare := by
    rintro n _ _ _ _ taken word initial
    exact ⟨rfl, same.declare (n := n) taken word initial⟩
  block := by
    intro _ _ _ each
    obtain ⟨none, rfl⟩ := same_of_forall₂ each
    exact ⟨Stmt.allBreaks_eq_nil none, rfl⟩
  branch := by
    rintro _ _ _ _ _ _ _ rfl first second
    obtain ⟨none, rfl⟩ := same_of_forall₂ first
    obtain ⟨none', rfl⟩ := same_of_forall₂ second
    exact ⟨by rw [Stmt.breaks, Stmt.allBreaks_eq_nil none, Stmt.allBreaks_eq_nil none']; rfl, rfl⟩
  loop := by
    rintro _ _ _ _ _ rfl ⟨none, rfl⟩
    exact ⟨by rw [Stmt.breaks, none]; rfl, rfl⟩

namespace Parser

theorem postcondition_breakless : Postcondition (fun _ => True)
    fun Q p => Orderly p ∧ Keeps (· ≠ .strayBreak) Q p where
  pure holds := ⟨.pure _, .pure holds⟩
  bind first next := by
    refine ⟨first.1.bind fun a ⟨ts, value⟩ => ?_, first.2.bind fun a given => (next a given).2⟩
    exact (next a (first.2.values ts a value)).1
  fail grave := ⟨.fail _, .fail fun stray => grave (by simp [stray, Mistake.mild])⟩
  accept_bind found absent := ⟨.accept_bind (fun t member => (found t trivial member).1) absent.1,
    .accept_bind (fun t member => (found t trivial member).2) absent.2⟩
  next := ⟨.next, .next⟩
  remaining := ⟨.remaining, .remaining⟩
  target _ := ⟨.complain _ _, .complain (by decide)⟩

theorem congruence_breakless : Congruence .breakless (fun _ => True) fun _ _ A p _ =>
    Orderly p ∧ Keeps (· ≠ .strayBreak) (fun a => ∃ b, A a b) p :=
  postcondition_breakless.congruence (fun _ _ => rfl) (fun _ => trivial)
    ⟨advancing_atom.toOrderly, .atom (by decide) fun _ => ⟨_, rfl⟩⟩

variable {depth : Nat}

theorem quiet_within : Quiet (Rules.within depth).expression :=
  have ⟨orderly, keeps⟩ := (congruence_breakless.within depth).expression
  .of_keeps orderly keeps

theorem quiet_optionalExpression (closer : Kind) :
    Quiet (optionalExpression (Rules.within depth) closer) :=
  have ⟨orderly, keeps⟩ := congruence_breakless.optionalExpression
    (congruence_breakless.within depth) postcondition_breakless.looks closer
  .of_keeps orderly keeps

section Statements

variable {statement : Setting → Parser Stmt} {setting : Setting}

theorem tallies_of_breakless {p : Parser Stmt} {n : Nat} (simple : Orderly p ∧
    Keeps (· ≠ .strayBreak) (fun s => ∃ r, TreeRelation.breakless.stmt n s r) p) :
    Tallies inLoop [] p Stmt.breaks :=
  .of_keeps simple.1 (simple.2.imp (fun _ => id) fun _ ⟨_, empty, _⟩ => empty)

theorem tallies_declaration : Tallies inLoop [] (declaration (Rules.within depth)) Stmt.breaks :=
  tallies_of_breakless (congruence_breakless.declaration trivial (congruence_breakless.within depth))

theorem tallies_expressionStatement :
    Tallies inLoop [] (expressionStatement (Rules.within depth)) Stmt.breaks :=
  tallies_of_breakless
    (congruence_breakless.expressionStatement trivial (congruence_breakless.within depth))

theorem tallies_printStatement {keyword : Token} (word : keyword.kind = .printWord) :
    Tallies inLoop [] (printStatement (Rules.within depth) keyword) Stmt.breaks :=
  tallies_of_breakless
    (congruence_breakless.printStatement trivial (congruence_breakless.within depth) rfl word)

theorem tallies_initialStatement : Tallies inLoop [] (initialStatement (Rules.within depth))
    fun found => Stmt.allBreaks found.toList := by
  have ⟨orderly, keeps⟩ :=
    congruence_breakless.initialStatement trivial (congruence_breakless.within depth) trivial
  refine .of_keeps orderly (keeps.imp (fun _ => id) fun found ⟨_, like⟩ => ?_)
  cases like with
  | none => rfl
  | some both => exact Stmt.allBreaks_eq_nil (by simpa using both.1)

theorem tallies_complain (keyword : Token) :
    Tallies false [⟨keyword, true⟩] (complain keyword .strayBreak) fun _ => [⟨keyword, false⟩] := by
  intro ts taken cs _ settled
  have member : keyword ∈ taken := settled.keywords _ List.mem_cons_self
  refine ⟨[], rfl, ?_, ?_, ?_⟩
  · simpa [complain] using member
  · intro c given same
    rw [List.append_nil]
    obtain early | now := List.mem_append.1 given
    · exact settled.strays c early same
    · exact ⟨keyword, member, by rw [List.mem_singleton.1 now]⟩
  · simp [complain]

theorem tallies_breakStatement (keyword : Token) :
    Tallies setting.inLoop [⟨keyword, true⟩] (breakStatement setting keyword) Stmt.breaks := by
  have ending : Tallies setting.inLoop [⟨keyword, false⟩] (do
      let _ ← expect .semicolon .breakEnd
      return Stmt.leave keyword) Stmt.breaks :=
    (quiet_expect _ (by decide) _ _).bind fun _ => .pure (List.Subset.refl _)
  rw [breakStatement]
  split
  · rename_i outside
    have outside : setting.inLoop = false := by simpa using outside
    rw [outside] at ending ⊢
    exact (tallies_complain keyword).bind fun _ => ending
  · rename_i inside
    have inside : setting.inLoop = true := by simpa using inside
    rw [inside] at ending ⊢
    exact fun ts taken cs fresh settled => ending ts taken cs fresh (settled.inside false)

theorem tallies_entriesUpTo {one : Parser (Option Stmt)} {closers : List Kind}
    (each : Tallies inLoop [] one fun found => found.elim [] Stmt.breaks) (count : Nat) :
    Tallies inLoop [] (entriesUpTo one closers count) fun found =>
      Stmt.allBreaks (found.filterMap id) := by
  induction count with
  | zero => exact .pure (List.Subset.refl _)
  | succ count ih =>
    refine (Quiet.of_keeps .next .next _ _).bind fun found => ?_
    cases found with
    | none => exact .pure (List.Subset.refl _)
    | some t =>
      by_cases closed : t.kind ∈ closers
      · simp only [closed, if_true]
        exact .pure (List.Subset.refl _)
      · simp only [closed, if_false]
        refine each.bind fun first => ih.frame.bind fun rest => .pure ?_
        cases first with
        | none => exact List.Subset.refl _
        | some s => exact List.Subset.refl _

variable (nested : ∀ s : Setting, Tallies s.inLoop [] (statement s) Stmt.breaks) (setting : Setting)

include nested

theorem tallies_entry :
    Tallies setting.inLoop [] (entry (Rules.within depth) statement setting) fun found =>
      found.elim [] Stmt.breaks := by
  refine Tallies.recover (Tallies.accept_bind (fun _ => ?_) (nested setting)) (resume_suffix _)
  exact tallies_declaration.weaken (List.nil_subset _)

theorem tallies_entries :
    Tallies setting.inLoop [] (entries (entry (Rules.within depth) statement) setting) fun found =>
      Stmt.allBreaks (found.filterMap id) :=
  (Quiet.of_keeps .remaining .remaining _ _).bind fun count =>
    tallies_entriesUpTo (tallies_entry nested setting) count

theorem tallies_body :
    Tallies setting.inLoop [] (body (Rules.within depth) statement setting) Stmt.allBreaks :=
  (tallies_entries nested setting).bind fun _ => .pure (List.Subset.refl _)

theorem tallies_block :
    Tallies setting.inLoop [] (block (Rules.within depth) statement setting) Stmt.breaks :=
  have whole : Tallies setting.inLoop []
      (body (Rules.within depth) statement (setting.closedBy [.endWord])) Stmt.allBreaks :=
    tallies_body nested (setting.closedBy [.endWord])
  whole.bind fun _ => (quiet_expect _ (by decide) _ _).bind fun _ => .pure (List.Subset.refl _)

theorem tallies_branch :
    Tallies setting.inLoop [] (branch (Rules.within depth) statement setting) Stmt.breaks := by
  have part (closers : List Kind) : Tallies setting.inLoop []
      (body (Rules.within depth) statement (setting.closedBy closers)) Stmt.allBreaks :=
    tallies_body nested (setting.closedBy closers)
  refine (quiet_within _ _).bind fun condition => (quiet_expect _ (by decide) _ _).bind fun _ => ?_
  refine (part _).bind fun consequent => ?_
  have ending : ∀ alternate, Tallies setting.inLoop
      (Stmt.allBreaks consequent ++ Stmt.allBreaks alternate) (do
        let _ ← expect .endWord .branchEnd
        return Stmt.branch condition consequent alternate) Stmt.breaks := fun alternate =>
    (quiet_expect _ (by decide) _ _).bind fun _ => .pure (List.Subset.refl _)
  refine Tallies.accept_bind (fun _ => ?_) ?_
  · exact ((part _).frame.bind ending).weaken (List.subset_append_left _ _)
  · exact (Tallies.pure (by simp [Stmt.allBreaks])).bind ending

theorem tallies_whileLoop :
    Tallies setting.inLoop [] (whileLoop (Rules.within depth) statement setting) Stmt.breaks :=
  (quiet_within _ _).bind fun _ =>
    (nested setting.looped).looped.bind fun _ => .pure (List.Subset.refl _)

theorem tallies_forLoop :
    Tallies setting.inLoop [] (forLoop (Rules.within depth) statement setting) Stmt.breaks := by
  refine (quiet_expect _ (by decide) _ _).bind fun _ => ?_
  refine tallies_initialStatement.bind fun initial => ?_
  refine (quiet_optionalExpression _ _ _).bind fun condition => ?_
  refine (quiet_expect _ (by decide) _ _).bind fun _ => ?_
  refine (quiet_optionalExpression _ _ _).bind fun increment => ?_
  refine (quiet_expect _ (by decide) _ _).bind fun _ => ?_
  refine (nested setting.looped).looped.frame.bind fun body => .pure ?_
  rw [Stmt.breaks_counting]
  exact List.Subset.refl _

theorem tallies_statementWith :
    Tallies setting.inLoop [] (statementWith (Rules.within depth) statement setting) Stmt.breaks := by
  refine Tallies.accept_bind (fun keyword => ?_) tallies_expressionStatement
  have plain {p : Parser Stmt} (tallies : Tallies setting.inLoop [] p Stmt.breaks) :
      Tallies setting.inLoop ([] ++ [⟨keyword, true⟩]) p Stmt.breaks :=
    tallies.weaken (List.nil_subset _)
  dsimp only
  split
  · exact plain (tallies_printStatement ‹_›)
  · exact plain (tallies_block nested setting)
  · exact plain (tallies_branch nested setting)
  · exact plain (tallies_whileLoop nested setting)
  · exact plain (tallies_forLoop nested setting)
  · exact tallies_breakStatement keyword

end Statements

theorem tallies_statement (depth : Nat) (setting : Setting) :
    Tallies setting.inLoop [] (statement depth setting) Stmt.breaks := by
  induction depth generalizing setting with
  | zero =>
    have quiet : Quiet (fail .nesting : Parser Stmt) :=
      .of_keeps (.fail _) (.fail (Q := fun _ => True) (by decide))
    exact quiet setting.inLoop []
  | succ depth ih => exact tallies_statementWith ih setting

theorem tallies_program :
    Tallies false [] program fun found => Stmt.allBreaks (found.filterMap id) :=
  tallies_entries (tallies_statement nestingLimit) .top

theorem settled_program {ts : List Token} (fresh : ts.Nodup) :
    Settled false ts (program ts).complaints
      (Stmt.allBreaks (((program ts).value.getD []).filterMap id)) := by
  obtain ⟨used, cut, settled⟩ := tallies_program ts [] [] fresh (.nothing [])
  obtain ⟨entries, value⟩ := Option.isSome_iff_exists.1 (unfailing_program ts)
  rw [rest_program, List.append_nil] at cut
  rw [value] at settled ⊢
  rw [cut] at settled ⊢
  exact settled

end Parser

theorem Mistake.eq_strayBreak {m : Mistake} (same : m.message = Mistake.strayBreak.message) :
    m = .strayBreak := by
  revert same
  cases m <;> decide

theorem enclosed_iff_reported (source : String) {b : Break}
    (member : b ∈ (parse (scan source).tokens).parsed.breaks) :
    b.enclosed = false ↔ ∃ r ∈ (parse (scan source).tokens).reports,
      r.pos = b.keyword.pos ∧ r.message = Mistake.strayBreak.message := by
  have places := Scan.words_nodup source.toList
  have settled := Parser.settled_program (List.Nodup.of_map _ places)
  simp only [scan, parse, Reading.of, Parsed.breaks, Scan.content_ofChars] at member ⊢
  have agree : _ ↔ (false || b.enclosed) = false := settled.agree b member
  rw [Bool.false_or] at agree
  rw [← agree]
  constructor
  · intro stray
    exact ⟨_, List.mem_map_of_mem stray, rfl, rfl⟩
  · rintro ⟨r, reported, place, message⟩
    obtain ⟨⟨token?, mistake⟩, given, rfl⟩ := List.mem_map.1 reported
    obtain rfl := Mistake.eq_strayBreak message
    obtain ⟨t, taken, rfl⟩ := settled.strays _ given rfl
    -- a place belongs to one token only, so the report is about this break
    have same : t = b.keyword :=
      List.inj_on_of_nodup_map places taken (settled.keywords b member) place
    rwa [← same]

namespace Session

theorem run_of_grammatical {rounds : Nat} {source : String} {m m' : Machine} {reply : Reply}
    (ends : run rounds source m = .ok reply m')
    (grammatical : ∀ r ∈ reply.reports, r.kind ≠ .grammar) :
    ∃ trees, reply.parsed = .program (trees.map some) ∧
      (Stmt.execAll rounds Machine.globalScope trees m = .ok () m' ∨
        ∃ f, Stmt.execAll rounds Machine.globalScope trees m = .error (.stop (.failure f)) m' ∧
          .runtime f ∈ reply.reports) := by
  rw [run_eq] at ends
  obtain ⟨parsed, kept, outcome⟩ := perform_ends ends
  have silent : (Parser.program (Scan.words source.toList)).complaints = [] := by
    refine List.eq_nil_iff_forall_not_mem.2 fun c member => ?_
    exact grammatical _ (kept (List.mem_append_right _ (List.mem_map_of_mem member))) rfl
  have settled := Parser.settled_program (Scan.words_nodup source.toList).of_map
  obtain ⟨trees, -, read⟩ := Grammar.derived_of_silent silent
  rw [Parser.Reads] at read
  have all : (trees.map some).filterMap id = trees := by simp
  simp only [read, Option.getD_some, all] at parsed outcome settled
  have enclosed : ∀ b ∈ Stmt.allBreaks trees, b.enclosed = true := fun b member => by
    simpa using settled.agree b member
  refine ⟨trees, parsed, ?_⟩
  obtain ended | left | failed := outcome
  · exact .inl ended
  · -- a loop is left only by a break that has none around it
    have stays := Stmt.execAll_stays rounds trees (Stmt.anyLeaves_of_breaks trees enclosed)
    exact absurd rfl (stays _ m _ _ left)
  · exact .inr failed

end Session

/-- A break that a run could trip over is one that was reported. In the trees of a text a break has no
loop around it exactly if its place is reported as that of a stray one; and whatever the machine, a
run that ends without a report about the grammar went through all statements of the text in order, or
up to a failure that it reports. -/
theorem breaks_reported_or_enclosed (source : String) :
    (∀ b ∈ (parse (scan source).tokens).parsed.breaks, b.enclosed = false ↔
      ∃ r ∈ (parse (scan source).tokens).reports,
        r.pos = b.keyword.pos ∧ r.message = Mistake.strayBreak.message) ∧
    ∀ rounds m reply m', Session.run rounds source m = .ok reply m' →
      (∀ r ∈ reply.reports, r.kind ≠ .grammar) →
      ∃ trees, reply.parsed = .program (trees.map some) ∧
        (Stmt.execAll rounds Machine.globalScope trees m = .ok () m' ∨
          ∃ f, Stmt.execAll rounds Machine.globalScope trees m = .error (.stop (.failure f)) m' ∧
            .runtime f ∈ reply.reports) :=
  ⟨fun _ => enclosed_iff_reported source, fun _ _ _ _ => Session.run_of_grammatical⟩

def straySample : Reading :=
  parse (scan "while true break; if true then break; end").tokens

theorem straySample_breaks :
    (⟨⟨.breakWord, "break", none, ⟨1, 12⟩⟩, true⟩ ∈ straySample.parsed.breaks ∧
      ⟨⟨.breakWord, "break", none, ⟨1, 32⟩⟩, false⟩ ∈ straySample.parsed.breaks ∧
      ∃ r ∈ straySample.reports, r.pos = ⟨1, 32⟩ ∧ r.message = Mistake.strayBreak.message) ∧
    ∃ rounds reply m', Session.run rounds "while true break; x;" (.start .unlimited) = .ok reply m' ∧
      (∀ r ∈ reply.reports, r.kind ≠ .grammar) ∧
      ∃ trees, reply.parsed = .program (trees.map some) ∧
        (Stmt.execAll rounds Machine.globalScope trees (.start .unlimited) = .ok () m' ∨
          ∃ f, Stmt.execAll rounds Machine.globalScope trees (.start .unlimited) =
            .error (.stop (.failure f)) m' ∧ .runtime f ∈ reply.reports) := by
  have inside : ⟨⟨.breakWord, "break", none, ⟨1, 12⟩⟩, true⟩ ∈ straySample.parsed.breaks := by
    decide +kernel
  have outside : ⟨⟨.breakWord, "break", none, ⟨1, 32⟩⟩, false⟩ ∈ straySample.parsed.breaks := by
    decide +kernel
  obtain ⟨m', rounds, reply, ends, reports⟩ :
      ∃ m', Session.Gives "while true break; x;" (.start .unlimited)
        [⟨.undefinedVariable, .lexeme "x", ⟨1, 19⟩, "Undefined variable 'x'."⟩] m' :=
    Session.exists_gives 1 (by decide +kernel)
  have grammatical : ∀ r ∈ reply.reports, r.kind ≠ .grammar := by simp [reports]
  refine ⟨⟨inside, outside, ((breaks_reported_or_enclosed _).1 _ outside).1 rfl⟩, ?_⟩
  exact ⟨rounds, reply, m', ends, grammatical,
    (breaks_reported_or_enclosed _).2 rounds _ reply m' ends grammatical⟩

end Scriptlet
