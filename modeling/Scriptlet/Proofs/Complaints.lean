import Mathlib.Data.List.Perm.Subperm
import Scriptlet.Proofs.Places
import Scriptlet.Proofs.Restarts

/-! No token is complained about twice. A reader that goes on has dropped every token it complained
about. One that fails may still stand at such a token, which recovery then drops as well, unless it is the
word that closes the body; that word is taken next, and without a complaint. At the end of the text no
token is left to drop, so there each body that is still open has its own complaint, after at most one
about something else. -/
namespace Scriptlet

namespace Complaint

def blamed (cs : List Complaint) : List Token :=
  cs.filterMap token?

def atEnd (cs : List Complaint) : List Mistake :=
  (cs.filter (·.token? = none)).map mistake

@[simp] theorem blamed_append (cs ds : List Complaint) : blamed (cs ++ ds) = blamed cs ++ blamed ds :=
  List.filterMap_append ..

@[simp] theorem atEnd_append (cs ds : List Complaint) : atEnd (cs ++ ds) = atEnd cs ++ atEnd ds := by
  simp [atEnd]

/-- What is complained about and what is left over come from the tokens given, none of them more often
than it was given. -/
def Accounted (cs : List Complaint) (rest given : List Token) : Prop :=
  (blamed cs ++ rest).Subperm given

namespace Accounted

variable {cs ds : List Complaint} {rest mid given : List Token}

theorem silent (before rest : List Token) : Accounted [] rest (before ++ rest) :=
  (List.sublist_append_right before rest).subperm

theorem fewer (accounted : Accounted cs rest given) {less : List Token} (le : less.Sublist rest) :
    Accounted cs less given :=
  ((List.Sublist.refl _).append le).subperm.trans accounted

theorem more (accounted : Accounted cs rest given) {all : List Token} (le : given.Subperm all) :
    Accounted cs rest all :=
  List.Subperm.trans accounted le

theorem trans (first : Accounted cs mid given) (second : Accounted ds rest mid) :
    Accounted (cs ++ ds) rest given := by
  have later := (List.subperm_append_left (blamed cs)).2 second
  rw [Accounted, blamed_append, List.append_assoc]
  exact later.trans first

theorem frame (accounted : Accounted cs rest given) (aside : List Token) :
    Accounted cs (aside ++ rest) (aside ++ given) := by
  have moved : (blamed cs ++ (aside ++ rest)).Perm (aside ++ (blamed cs ++ rest)) :=
    List.perm_append_comm_assoc ..
  exact moved.subperm.trans ((List.subperm_append_left aside).2 accounted)

end Accounted

end Complaint

open Complaint (blamed atEnd Accounted)

def Mistake.unclosed : List Mistake :=
  [.blockEnd, .branchEnd]

/-- At most one mistake of any kind, then at most so many of bodies left open. -/
def Mistake.Trail (bodies : Nat) (ms : List Mistake) : Prop :=
  ∃ (first : Option Mistake) (others : List Mistake), ms = first.toList ++ others ∧
    (∀ m ∈ others, m ∈ unclosed) ∧ others.length ≤ bodies

namespace Mistake.Trail

variable {bodies : Nat} {ms : List Mistake}

theorem nil (bodies : Nat) : Trail bodies [] :=
  ⟨none, [], rfl, nofun, Nat.zero_le _⟩

theorem single (bodies : Nat) (m : Mistake) : Trail bodies [m] :=
  ⟨some m, [], rfl, nofun, Nat.zero_le _⟩

theorem mono (trail : Trail bodies ms) {more : Nat} (le : bodies ≤ more) : Trail more ms := by
  obtain ⟨first, others, same, unclosed, few⟩ := trail
  exact ⟨first, others, same, unclosed, Nat.le_trans few le⟩

theorem concat (trail : Trail bodies ms) {m : Mistake} (open_ : m ∈ unclosed) :
    Trail (bodies + 1) (ms ++ [m]) := by
  obtain ⟨first, others, rfl, unclosed, few⟩ := trail
  refine ⟨first, others ++ [m], by simp, ?_, by simpa using few⟩
  exact List.forall_mem_append.2 ⟨unclosed, List.forall_mem_singleton.2 open_⟩

end Mistake.Trail

/-- How a reader ends that was given these tokens. If it yields, all it complained about is spent. If it
fails, the next token may have been complained about. -/
inductive Step.Fair {α : Type} (bodies : Nat) (given : List Token) : Step α → Prop
  | read {a : α} {rest : List Token} {cs : List Complaint} : Accounted cs rest given → atEnd cs = [] →
      Fair bodies given ⟨some a, rest, cs⟩
  | lost {rest : List Token} {cs : List Complaint} : Accounted cs rest.tail given →
      Mistake.Trail bodies (atEnd cs) → (atEnd cs ≠ [] → rest = []) → Fair bodies given ⟨none, rest, cs⟩

theorem Step.Fair.after {α : Type} {bodies : Nat} {mid given : List Token} {s : Step α}
    (fair : s.Fair bodies mid) {cs : List Complaint} (accounted : Accounted cs mid given)
    (silent : atEnd cs = []) :
    (⟨s.value, s.rest, cs ++ s.complaints⟩ : Step α).Fair bodies given := by
  have same (ds : List Complaint) : atEnd (cs ++ ds) = atEnd ds := by
    rw [Complaint.atEnd_append, silent, List.nil_append]
  cases fair with
  | read further none => exact .read (accounted.trans further) ((same _).trans none)
  | lost further trail last =>
    exact .lost (accounted.trans further) ((same _).symm ▸ trail) ((same _).symm ▸ last)

namespace Parser

variable {α β : Type} {bodies : Nat} {before : List Token}

/-- A reader that ends so wherever it begins. Besides what is before it, it may complain once about each
of some tokens that were taken already. -/
def Fair (bodies : Nat) (before : List Token) (p : Parser α) : Prop :=
  ∀ ts, (p ts).Fair bodies (before ++ ts)

namespace Fair

variable {p : Parser α} {f : α → Parser β}

theorem weaken (fair : Fair bodies [] p) (before : List Token) : Fair bodies before p := by
  intro ts
  have step := fair ts
  have le : ts.Subperm (before ++ ts) := (List.sublist_append_right before ts).subperm
  generalize p ts = s at step
  cases step with
  | read accounted silent => exact .read (accounted.more le) silent
  | lost accounted trail last => exact .lost (accounted.more le) trail last

theorem mono (fair : Fair bodies before p) {more : Nat} (le : bodies ≤ more) :
    Fair more before p := by
  intro ts
  have step := fair ts
  generalize p ts = s at step
  cases step with
  | read accounted silent => exact .read accounted silent
  | lost accounted trail last => exact .lost accounted (trail.mono le) last

theorem of_still (still : ∀ ts, ∃ a, p ts = ⟨some a, ts, []⟩) : Fair bodies before p := by
  intro ts
  obtain ⟨a, read⟩ := still ts
  rw [read]
  exact .read (.silent before ts) rfl

theorem pure (a : α) : Fair bodies before (pure a : Parser α) :=
  of_still fun _ => ⟨a, rfl⟩

theorem fail (m : Mistake) : Fair bodies [] (fail m : Parser α) := by
  intro ts
  cases ts with
  | nil => exact .lost (.silent [] []) (.single bodies m) fun _ => rfl
  | cons t ts => exact .lost (List.Subperm.refl _) (.nil bodies) (absurd rfl)

theorem complain (t : Token) (m : Mistake) : Fair bodies [t] (complain t m) :=
  fun _ => .read (List.Subperm.refl _) rfl

/-- What the second reader may still complain about is set aside for it. -/
theorem bind {after : List Token} (first : Fair bodies before p)
    (next : ∀ a, Yields p a → Fair bodies after (f a)) : Fair bodies (before ++ after) (p >>= f) := by
  intro ts
  have step := first ts
  have aside : (after ++ (before ++ ts)).Perm (before ++ after ++ ts) := by
    rw [List.append_assoc]
    exact List.perm_append_comm_assoc ..
  match read : p ts with
  | ⟨none, mid, cs⟩ =>
    rw [read] at step
    rw [bind_of_none f read]
    obtain _ | ⟨accounted, trail, last⟩ := step
    have le := (List.sublist_append_right after (before ++ ts)).subperm.trans aside.subperm
    exact .lost (accounted.more le) trail last
  | ⟨some a, mid, cs⟩ =>
    rw [read] at step
    rw [bind_of_some f read]
    obtain ⟨accounted, silent⟩ | _ := step
    exact (next a ⟨ts, by rw [read]⟩ mid).after ((accounted.frame after).more aside.subperm) silent

theorem accept_bind {kinds : List Kind} {f : Option Token → Parser β}
    (found : ∀ t, t.kind ∈ kinds → Fair bodies (before ++ [t]) (f (some t)))
    (absent : Fair bodies before (f none)) : Fair bodies before (accept kinds >>= f) := by
  intro ts
  obtain ⟨t, rest, rfl, member, read⟩ | ⟨-, read⟩ := accept_bind_cases kinds f ts
  · rw [read]
    simpa using found t member rest
  · rw [read]
    exact absent ts

theorem expect (kind : Kind) (m : Mistake) : Fair bodies [] (expect kind m) :=
  accept_bind (fun t _ => pure t) (fail m)

end Fair

theorem fair_atom : Fair bodies [] atom := by
  intro ts
  obtain ⟨t, rest, e, rfl, -, read⟩ | failed := atom_cases ts
  · rw [read]
    exact .read (.silent [t] rest) rfl
  · rw [failed]
    exact Fair.fail .expression ts

theorem passesOn_fair (bodies : Nat) : PassesOn (fun _ => True) fun _ _ p => Fair bodies [] p where
  usual _ _ := trivial
  relax := id
  pure := .pure
  bind := .bind
  fail _ := .fail _
  accept_bind _ found absent := .accept_bind (fun t member => (found t member).weaken [t]) absent

/-- An operator without a target is complained about after the value was read, so neither can be
again. -/
theorem passes_fair (bodies : Nat) : Passes (fun _ => True) fun _ _ p => Fair bodies [] p where
  toPassesOn := passesOn_fair bodies
  atom := fair_atom
  chainRest := (passesOn_fair bodies).chainRest (.of_still fun ts => ⟨ts.length, rfl⟩)
  dropValue target value := by
    refine .accept_bind (fun operator _ => value.bind fun _ _ => ?_) (.pure target)
    exact (Fair.complain operator .target).bind fun _ _ => .pure target

theorem fair_breakStatement (setting : Setting) (keyword : Token) :
    Fair bodies [keyword] (breakStatement setting keyword) := by
  have ending : Fair bodies [] (do
      let _ ← expect .semicolon .breakEnd
      return Stmt.leave keyword) := (Fair.expect _ _).bind fun _ _ => .pure _
  rw [breakStatement]
  split
  · exact (Fair.complain keyword .strayBreak).bind fun _ _ => ending
  · exact ending.weaken [keyword]

def past (closers : List Kind) : List Token → List Token
  | [] => []
  | t :: ts => if t.kind ∈ closers then ts else t :: ts

theorem past_sublist (closers : List Kind) (ts : List Token) : (past closers ts).Sublist ts := by
  cases ts with
  | nil => exact List.Sublist.refl []
  | cons t ts =>
    rw [past]
    split
    · exact List.sublist_cons_self t ts
    · exact List.Sublist.refl _

theorem past_of_closed {closers : List Kind} {ts : List Token}
    (closed : ∀ t ∈ ts.head?, t.kind ∈ closers) : past closers ts = ts.tail := by
  cases ts with
  | nil => rfl
  | cons t ts => exact if_pos (closed t rfl)

end Parser

/-- How entries of a body end. Only the word that closes it can be left after a complaint, and if
something was found at the end, then nothing is left. -/
structure Step.Resumed {α : Type} (bodies : Nat) (closers : List Kind) (given : List Token)
    (s : Step α) : Prop where
  accounted : Accounted s.complaints (Parser.past closers s.rest) given
  trail : Mistake.Trail bodies (atEnd s.complaints)
  last : atEnd s.complaints ≠ [] → s.rest = []

namespace Parser

variable {bodies : Nat} {inner : Rules} {statement : Setting → Parser Stmt}

theorem resumed_of_fair {α : Type} {p : Parser α} (fair : Fair bodies [] p) (closers : List Kind)
    (ts : List Token) : (recover (resume closers) p ts).Resumed bodies closers ts := by
  have step := fair ts
  rw [recover]
  generalize p ts = s at step ⊢
  cases step with
  | read accounted silent =>
    exact ⟨accounted.fewer (past_sublist closers _), silent ▸ .nil bodies, fun some => absurd silent some⟩
  | @lost rest cs accounted trail last =>
    refine ⟨accounted.fewer ?_, trail, fun some => by rw [last some]; rfl⟩
    cases rest with
    | nil => exact List.Sublist.refl []
    | cons t rest =>
      simp only [resume]
      split
      · rename_i closes
        simp only [past, closes, if_true]
        exact List.Sublist.refl _
      · exact (past_sublist closers _).trans (skipAfter_suffix t rest).sublist

section Bodies

variable {setting : Setting}

/-- Entry after entry, what is left of the tokens accounts for the next one, up to the closing word. -/
theorem resumed_entries (further : inner.Advancing) (nested : Advancing (statement setting))
    (one : ∀ ts, (entry inner statement setting ts).Resumed bodies setting.closers ts)
    (ts : List Token) :
    (∀ t ∈ (entries (entry inner statement) setting ts).rest.head?, t.kind ∈ setting.closers) ∧
      (entries (entry inner statement) setting ts).Resumed bodies setting.closers
        (past setting.closers ts) := by
  by_cases closed : ∀ t ∈ ts.head?, t.kind ∈ setting.closers
  · rw [entries_of_closed closed]
    exact ⟨closed, .silent [] _, .nil bodies, absurd rfl⟩
  · match ts with
    | [] => exact absurd (by simp) closed
    | t :: ts =>
      have shrinks := fun (t : Token) ts (inside : t.kind ∉ setting.closers) =>
        entry_length_lt further nested inside ts
      have inside : t.kind ∉ setting.closers := by simpa using closed
      have first := one (t :: ts)
      obtain ⟨found, mid, cs, read⟩ :=
        (unfailing_entry inner statement setting).exists_read (t :: ts)
      have shorter : mid.length < (t :: ts).length := by
        simpa only [read] using shrinks t ts inside
      rw [read] at first
      obtain ⟨ended, others⟩ := resumed_entries further nested one mid
      obtain ⟨rest, left, ds, again⟩ :=
        (unfailing_entries inner statement setting).exists_read mid
      rw [again] at ended others
      rw [entries_of_inside shrinks inside, bind_of_some _ read, bind_of_some _ again, past,
        if_neg inside, pure_apply, List.append_nil]
      have accounted := first.accounted.trans others.accounted
      by_cases silent : atEnd cs = []
      · have same : atEnd (cs ++ ds) = atEnd ds := by rw [Complaint.atEnd_append, silent]; rfl
        exact ⟨ended, accounted, same ▸ others.trail, same ▸ others.last⟩
      · -- something was found at the end, so this entry is the last
        obtain rfl : mid = [] := first.last silent
        rw [entries_of_closed (by simp)] at again
        obtain ⟨-, rfl, rfl⟩ := Step.mk.inj again
        rw [List.append_nil] at accounted ⊢
        exact ⟨ended, accounted, first.trail, fun _ => rfl⟩
termination_by ts.length
decreasing_by simpa using shorter

def Closes {α : Type} (bodies : Nat) (closers : List Kind) (f : Parser α) : Prop :=
  ∀ given rest cs, (∀ t ∈ rest.head?, t.kind ∈ closers) → Accounted cs rest.tail given →
    Mistake.Trail bodies (atEnd cs) → (atEnd cs ≠ [] → rest = []) →
    (⟨(f rest).value, (f rest).rest, cs ++ (f rest).complaints⟩ : Step α).Fair (bodies + 1) given

theorem closes_expect {m : Mistake} (unclosed : m ∈ Mistake.unclosed) (s : Stmt) :
    Closes bodies [.endWord] (do
      let _ ← expect .endWord m
      return s) := by
  intro given rest cs closed accounted trail last
  cases rest with
  | nil =>
    rw [bind_of_none _ (expect_of_other m (by simp))]
    refine .lost ?_ ?_ fun _ => rfl
    · simpa [Accounted, blamed] using accounted
    · simpa [atEnd] using trail.concat unclosed
  | cons t rest =>
    have kind : t.kind = .endWord := by simpa using closed t rfl
    rw [bind_of_some _ (expect_of_kind m kind rest), pure_apply]
    have silent : atEnd cs = [] := by simpa using mt last
    exact .read (by simpa using accounted) (by simpa using silent)

theorem fair_body {α : Type} (further : inner.Advancing) (nested : Advancing (statement setting))
    (one : ∀ ts, (entry inner statement setting ts).Resumed bodies setting.closers ts)
    {f : List Stmt → Parser α} (next : ∀ body, Closes bodies setting.closers (f body)) :
    Fair (bodies + 1) [] (body inner statement setting >>= f) := by
  intro ts
  obtain ⟨closed, resumed⟩ := resumed_entries further nested one ts
  obtain ⟨found, rest, cs, read⟩ := (unfailing_entries inner statement setting).exists_read ts
  rw [read] at closed resumed
  have whole : body inner statement setting ts = ⟨some (found.filterMap id), rest, cs⟩ := by
    rw [body, bind_of_some _ read, pure_apply, List.append_nil]
  rw [bind_of_some f whole]
  have accounted := resumed.accounted.more (past_sublist _ ts).subperm
  rw [past_of_closed closed] at accounted
  exact next _ ts rest cs closed accounted resumed.trail resumed.last

theorem closes_branch (further : inner.Advancing) (nested : ∀ s, Advancing (statement s))
    (one : ∀ s ts, (entry inner statement s ts).Resumed bodies s.closers ts) (condition : Expr)
    (consequent : List Stmt) :
    Closes bodies [.elseWord, .endWord] (do
      let alternate ← match ← accept [.elseWord] with
        | some _ => body inner statement (setting.closedBy [.endWord])
        | none => pure []
      let _ ← expect .endWord .branchEnd
      return Stmt.branch condition consequent alternate) := by
  intro given rest cs closed accounted trail last
  have ending (alternate : List Stmt) : Closes bodies [.endWord] (do
      let _ ← expect .endWord .branchEnd
      return Stmt.branch condition consequent alternate) := closes_expect (by decide) _
  by_cases turns : ∀ t ∈ rest.head?, t.kind ∉ [Kind.elseWord]
  · rw [accept_bind_not_mem _ turns]
    refine ending [] given rest cs (fun t head => ?_) accounted trail last
    exact (List.mem_cons.1 (closed t head)).resolve_left (by simpa using turns t head)
  · match rest with
    | [] => exact absurd (by simp) turns
    | t :: rest =>
      -- the word was left by the first body, so nothing was found at the end yet
      have silent : atEnd cs = [] := by simpa using mt last
      have member : t.kind ∈ [Kind.elseWord] := by simpa using turns
      rw [accept_bind_mem _ member]
      exact (fair_body further (nested _) (one (setting.closedBy [.endWord])) ending rest).after
        accounted silent

section Compound

variable (fair : inner.Each (Fair (bodies + 1) [])) (further : inner.Advancing)
  (nested : ∀ s, Fair bodies [] (statement s)) (advancing : ∀ s, Advancing (statement s))
  (one : ∀ s ts, (entry inner statement s ts).Resumed bodies s.closers ts)

include further advancing one in
theorem fair_block : Fair (bodies + 1) [] (block inner statement setting) :=
  fair_body further (advancing _) (one _) fun _ => closes_expect (by decide) _

include fair further advancing one in
theorem fair_branch : Fair (bodies + 1) [] (branch inner statement setting) :=
  fair.expression.bind fun _ _ => (Fair.expect _ _).bind fun _ _ =>
    fair_body further (advancing _) (one (setting.closedBy [.elseWord, .endWord])) fun _ =>
      closes_branch further advancing one _ _

include fair further nested advancing one in
theorem fair_statementWith : Fair (bodies + 1) [] (statementWith inner statement setting) := by
  have passes := passes_fair (bodies + 1)
  have rounds (s : Setting) : Fair (bodies + 1) [] (statement s) := (nested s).mono (Nat.le_succ _)
  have looks : Fair (bodies + 1) [] next? := .of_still fun ts => ⟨ts.head?, rfl⟩
  refine .accept_bind (fun keyword _ => ?_) (passes.expressionStatement trivial fair)
  dsimp only
  split
  · exact (passes.printStatement trivial fair ‹_›).weaken _
  · exact (fair_block further advancing one).weaken _
  · exact (fair_branch fair further advancing one).weaken _
  · exact (passes.whileLoop fair rounds).weaken _
  · exact (passes.forLoop trivial fair rounds looks trivial).weaken _
  · exact fair_breakStatement setting keyword

end Compound

end Bodies

theorem resumed_entry (depth : Nat) {setting : Setting}
    (fair : Fair bodies [] (statement setting)) (ts : List Token) :
    (entry (Rules.within depth) statement setting ts).Resumed bodies setting.closers ts :=
  have declared := (passes_fair bodies).declaration trivial ((passes_fair bodies).within depth)
  resumed_of_fair (.accept_bind (fun _ _ => declared.weaken _) fair) setting.closers ts

/-- Each level of nesting opens at most one body. -/
theorem fair_statement (depth : Nat) (setting : Setting) :
    Fair depth [] (Parser.statement depth setting) := by
  induction depth generalizing setting with
  | zero => exact .fail .nesting
  | succ depth ih =>
    exact fair_statementWith ((passes_fair _).within depth) (advancing_within depth) ih
      (advancing_statement depth) fun s => resumed_entry depth (ih s)

theorem accounted_program (ts : List Token) :
    (blamed (program ts).complaints).Subperm ts ∧
      Mistake.Trail nestingLimit (atEnd (program ts).complaints) := by
  obtain ⟨-, resumed⟩ := resumed_entries (advancing_within nestingLimit)
    (advancing_statement nestingLimit .top)
    (resumed_entry nestingLimit (fair_statement nestingLimit .top)) ts
  refine ⟨?_, resumed.trail⟩
  have spent := resumed.accounted.more (past_sublist _ ts).subperm
  exact (List.sublist_append_left _ _).subperm.trans spent

end Parser

namespace Reports

variable {cs : List Complaint} {finish : Token} (inner : ∀ t ∈ blamed cs, t.kind ≠ .finish)
  (ends : finish.kind = .finish)

include inner ends

theorem pos_of_blamed :
    ((cs.map (·.report finish)).filter (·.location ≠ .finish)).map Report.pos =
      (blamed cs).map Token.pos := by
  induction cs with
  | nil => rfl
  | cons c cs ih =>
    obtain ⟨token?, m⟩ := c
    cases token? with
    | none => simpa [Complaint.report, Report.grammar, ends, blamed] using ih inner
    | some t =>
      obtain ⟨first, others⟩ := List.forall_mem_cons.1 inner
      simpa [Complaint.report, Report.grammar, first, blamed] using ih others

theorem atEnd_of_complaints :
    (cs.map (·.report finish)).filter (·.location = .finish) =
      (atEnd cs).map fun m => .grammar finish m.message := by
  induction cs with
  | nil => rfl
  | cons c cs ih =>
    obtain ⟨token?, m⟩ := c
    cases token? with
    | none => simpa [Complaint.report, Report.grammar, ends, atEnd] using ih inner
    | some t =>
      obtain ⟨first, others⟩ := List.forall_mem_cons.1 inner
      simpa [Complaint.report, Report.grammar, first, atEnd] using ih others

end Reports

/-- No token is blamed twice. The reports on the grammar of a text that are not about its end stand at
different places. Of those about the end, all but at most one are about a body that is still open, and
there are at most 128 of these; so there are at most 128 reports more than tokens. -/
theorem reports_blame_once (source : String) :
    (((parse (scan source).tokens).reports.filter (·.location ≠ .finish)).map Report.pos).Nodup ∧
    (∃ (first : Option Report) (others : Reports),
      (parse (scan source).tokens).reports.filter (·.location = .finish) = first.toList ++ others ∧
      (∀ r ∈ others, r.message = "Expect 'end' after block." ∨
        r.message = "Expect 'end' after if statement.") ∧ others.length ≤ 128) ∧
    ((parse (scan source).tokens).reports.filter (·.location = .finish)).length ≤ 129 ∧
    (parse (scan source).tokens).reports.length ≤ (scan source).tokens.length + 128 := by
  obtain ⟨spent, first, others, trail, unclosed, few⟩ :=
    Parser.accounted_program (Scan.words source.toList)
  have inner : ∀ t ∈ blamed (Parser.program (Scan.words source.toList)).complaints,
      t.kind ≠ .finish := fun t member => Scan.words_kind (spent.subset member)
  have ends : (Token.finish (Position.start.after source.toList)).kind = .finish := rfl
  have reports : (parse (scan source).tokens).reports =
      (Parser.program (Scan.words source.toList)).complaints.map
        (·.report (.finish (Position.start.after source.toList))) := by
    simp only [parse, Reading.of, scan, Scan.content_ofChars, Scan.closing_ofChars]
  have inside := Reports.pos_of_blamed inner ends
  have atEnd := Reports.atEnd_of_complaints inner ends
  rw [← reports] at inside atEnd
  rw [trail, List.map_append] at atEnd
  have within : ((parse (scan source).tokens).reports.filter (·.location ≠ .finish)).length ≤
      (Scan.words source.toList).length := by
    have same := congrArg List.length inside
    rw [List.length_map, List.length_map] at same
    exact same ▸ spent.length_le
  have counted : (scan source).tokens.length = (Scan.words source.toList).length + 1 := by
    rw [scan, Scan.tokens_ofChars, List.length_append, List.length_singleton]
  have late : ((parse (scan source).tokens).reports.filter (·.location = .finish)).length ≤ 129 := by
    have one : first.toList.length ≤ 1 := by cases first <;> simp
    rw [atEnd, List.length_append, List.length_map, List.length_map]
    exact Nat.le_trans (Nat.add_le_add one few) (by decide)
  refine ⟨?_, ⟨first.map fun m => .grammar _ m.message, _, by rw [atEnd, Option.toList_map], ?_, ?_⟩,
    late, ?_⟩
  · -- tokens of a text are at different places, and each accounts for one complaint
    obtain ⟨once, same, among⟩ := spent
    rw [inside, ← (same.map Token.pos).nodup_iff]
    exact (Scan.words_nodup source.toList).sublist (among.map Token.pos)
  · intro r member
    obtain ⟨m, other, rfl⟩ := List.mem_map.1 member
    have kinds := unclosed m other
    simp only [Mistake.unclosed, List.mem_cons, List.not_mem_nil, or_false] at kinds
    exact kinds.imp (congrArg Mistake.message) (congrArg Mistake.message)
  · rw [List.length_map]
    exact few
  · have parts := (parse (scan source).tokens).reports.length_eq_length_filter_add
      (·.location ≠ .finish)
    simp only [ne_eq, decide_not, Bool.not_not] at parts within
    omega

end Scriptlet
