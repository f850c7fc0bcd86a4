import Scriptlet.Proofs.GrammarExpr

/-! Statements and programs are read exactly by their rules. A body whose entries are all read
leaves no gap, and a derivation of a body is read in front of anything: no rule looks beyond the end
of a statement. -/
namespace Scriptlet.Grammar
open Scriptlet.Parser

def statementStarts : List Kind :=
  [.printWord, .doWord, .ifWord, .whileWord, .forWord, .breakWord] ++ Level.expression.starting

theorem Statement.starts {n : Nat} {inLoop : Bool} {ts : List Token} {s : Stmt}
    (derived : Statement n inLoop ts s) : ∃ t us, ts = t :: us ∧ t.kind ∈ statementStarts := by
  cases derived with
  | expr derived _ =>
    obtain ⟨t, us, rfl, start⟩ := derived.starts
    exact ⟨t, _, rfl, List.mem_append_right _ start⟩
  | print keyword _ _ => exact ⟨_, _, rfl, by simp [statementStarts, keyword]⟩
  | block keyword _ _ => exact ⟨_, _, rfl, by simp [statementStarts, keyword]⟩
  | branch keyword _ _ _ _ => exact ⟨_, _, rfl, by simp [statementStarts, keyword]⟩
  | branchElse keyword _ _ _ _ _ _ => exact ⟨_, _, rfl, by simp [statementStarts, keyword]⟩
  | loop keyword _ _ _ => exact ⟨_, _, rfl, by simp [statementStarts, keyword]⟩
  | counting keyword _ _ _ _ _ _ => exact ⟨_, _, rfl, by simp [statementStarts, keyword]⟩
  | countingBy keyword _ _ _ _ _ _ _ => exact ⟨_, _, rfl, by simp [statementStarts, keyword]⟩
  | leave keyword _ => exact ⟨_, _, rfl, by simp [statementStarts, keyword]⟩

section Soundness

variable {n : Nat} {ts rest : List Token}

theorem sound_declaration {letWord : Token} {s : Stmt} (keyword : letWord.kind = .letWord)
    (read : Reads (declaration (Rules.within n)) ts s rest) :
    ∃ used, ts = used ++ rest ∧ Variable n (letWord :: used) s := by
  rw [declaration, reads_bind] at read
  obtain ⟨name, mid, first, read⟩ := read
  obtain ⟨rfl, named⟩ := reads_expect.1 first
  rw [reads_accept_bind] at read
  obtain ⟨equal, mid, rfl, assigned, read⟩ | ⟨-, read⟩ := read
  · simp only [reads_bind, reads_map, reads_expect, reads_pure] at read
    obtain ⟨_, mid, ⟨e, second, rfl⟩, semicolon, tail, ⟨rfl, ended⟩, rfl, rfl⟩ := read
    obtain ⟨used, rfl, derived, -⟩ := sound_ruleAt n .expression second
    refine ⟨name :: equal :: used ++ [semicolon], by simp, ?_⟩
    exact .initial keyword named (by simpa using assigned) derived ended
  · simp only [reads_bind, reads_expect, reads_pure] at read
    obtain ⟨_, mid, ⟨rfl, rfl⟩, semicolon, tail, ⟨rfl, ended⟩, rfl, rfl⟩ := read
    exact ⟨[name, semicolon], rfl, .bare keyword named ended⟩

theorem sound_expressionStatement {s : Stmt}
    (read : Reads (expressionStatement (Rules.within n)) ts s rest) :
    ∃ used semicolon e, ts = used ++ semicolon :: rest ∧ Derives n .expression used e ∧
      semicolon.kind = .semicolon ∧ s = .expr e := by
  simp only [expressionStatement, reads_bind, reads_expect, reads_pure] at read
  obtain ⟨e, mid, first, semicolon, tail, ⟨rfl, ended⟩, rfl, rfl⟩ := read
  obtain ⟨used, rfl, derived, -⟩ := sound_ruleAt n .expression first
  exact ⟨used, semicolon, e, rfl, derived, ended, rfl⟩

theorem sound_initialStatement {initial : Option Stmt}
    (read : Reads (initialStatement (Rules.within n)) ts initial rest) :
    ∃ used, ts = used ++ rest ∧ Initial n used initial := by
  rw [initialStatement, reads_accept_bind] at read
  obtain ⟨semicolon, mid, rfl, ended, read⟩ | ⟨-, read⟩ := read
  · obtain ⟨rfl, rfl⟩ := reads_pure.1 read
    exact ⟨[semicolon], rfl, .none (by simpa using ended)⟩
  · rw [reads_accept_bind] at read
    obtain ⟨letWord, mid, rfl, keyword, read⟩ | ⟨-, read⟩ := read
    · obtain ⟨s, inner, rfl⟩ := reads_map.1 read
      obtain ⟨used, rfl, derived⟩ := sound_declaration (by simpa using keyword) inner
      exact ⟨letWord :: used, rfl, .declare derived⟩
    · obtain ⟨s, inner, rfl⟩ := reads_map.1 read
      obtain ⟨used, semicolon, e, rfl, derived, ended, rfl⟩ := sound_expressionStatement inner
      exact ⟨used ++ [semicolon], by simp, .expr derived ended⟩

theorem sound_optionalExpression {closer : Kind} {found : Option Expr}
    (read : Reads (optionalExpression (Rules.within n) closer) ts found rest) :
    (found = none ∧ ts = rest) ∨
      ∃ used e, ts = used ++ rest ∧ Derives n .expression used e ∧ found = some e := by
  have inner (read : Reads (some <$> (Rules.within n).expression) ts found rest) :
      ∃ used e, ts = used ++ rest ∧ Derives n .expression used e ∧ found = some e := by
    obtain ⟨e, inner, rfl⟩ := reads_map.1 read
    obtain ⟨used, rfl, derived, -⟩ := sound_ruleAt n .expression inner
    exact ⟨used, e, rfl, derived, rfl⟩
  rw [optionalExpression, reads_next_bind] at read
  match ts with
  | [] => exact .inr (inner read)
  | t :: ts =>
    by_cases closed : t.kind = closer
    · simp only [List.head?_cons, closed, if_true, reads_pure] at read
      exact .inl ⟨read.1, read.2.symm⟩
    · simp only [List.head?_cons, closed, if_false] at read
      exact .inr (inner read)

def SoundStatement (n : Nat) : Prop :=
  ∀ ⦃setting : Setting⦄ ⦃ts rest : List Token⦄ ⦃s : Stmt⦄, Reads (statement n setting) ts s rest →
    ∃ used, ts = used ++ rest ∧ Statement n setting.inLoop used s

theorem sound_item (nested : SoundStatement n) {setting : Setting} {s : Stmt}
    (read : Reads (item (Rules.within n) (statement n) setting) ts s rest) :
    ∃ used, ts = used ++ rest ∧ (Variable n used s ∨ Statement n setting.inLoop used s) := by
  rw [item, reads_accept_bind] at read
  obtain ⟨letWord, mid, rfl, keyword, read⟩ | ⟨-, read⟩ := read
  · obtain ⟨used, rfl, derived⟩ := sound_declaration (by simpa using keyword) read
    exact ⟨letWord :: used, rfl, .inl derived⟩
  · obtain ⟨used, rfl, derived⟩ := nested read
    exact ⟨used, rfl, .inr derived⟩

theorem sound_entries (nested : SoundStatement n) {setting : Setting} {found : List (Option Stmt)}
    (read : Reads (entries (entry (Rules.within n) (statement n)) setting) ts found rest) :
    ∃ used body, ts = used ++ rest ∧ Body n setting.inLoop used body ∧ found = body.map some ∧
      ∀ t ∈ rest.head?, t.kind ∈ setting.closers := by
  have further := advancing_within n
  have advancing := advancing_statement n setting
  induction length : ts.length using Nat.strongRecOn generalizing ts found with
  | ind size ih =>
    subst length
    by_cases closed : ∀ t ∈ ts.head?, t.kind ∈ setting.closers
    · rw [Reads, entries_of_closed closed] at read
      cases read
      exact ⟨[], [], rfl, .nil, rfl, closed⟩
    · cases ts with
      | nil => exact absurd (by simp) closed
      | cons t tail =>
        have inside : t.kind ∉ setting.closers := by simpa using closed
        rw [Reads, entries_of_inside
          (fun _ ts inside => entry_length_lt further advancing inside ts)
          inside] at read
        obtain ⟨first, mid, one, later⟩ := reads_bind.1 read
        obtain ⟨others, last, more, same⟩ := reads_bind.1 later
        obtain ⟨rfl, rfl⟩ := reads_pure.1 same
        have shorter := entry_length_lt further advancing inside tail
        rw [one] at shorter
        obtain ⟨used', body, rfl, derived', rfl, closed⟩ := ih mid.length shorter more rfl
        obtain ⟨s, rfl, clean⟩ := (advancing_item further advancing).reads_recover.1 one
        obtain ⟨used, whole, derived⟩ := sound_item nested clean
        refine ⟨used ++ used', s :: body, by simpa using whole, ?_, rfl, closed⟩
        obtain declared | stated := derived
        · exact .declare declared derived'
        · exact .cons stated derived'

theorem sound_body (nested : SoundStatement n) {setting : Setting} {found : List Stmt}
    (read : Reads (body (Rules.within n) (statement n) setting) ts found rest) :
    ∃ used, ts = used ++ rest ∧ Body n setting.inLoop used found ∧
      ∀ t ∈ rest.head?, t.kind ∈ setting.closers := by
  simp only [body, reads_bind, reads_pure] at read
  obtain ⟨entries, mid, read, rfl, rfl⟩ := read
  obtain ⟨used, body, rfl, derived, rfl, closed⟩ := sound_entries nested read
  refine ⟨used, rfl, ?_, closed⟩
  simpa [List.filterMap_map] using derived

theorem sound_block (nested : SoundStatement n) {setting : Setting} {doWord : Token} {s : Stmt}
    (keyword : doWord.kind = .doWord)
    (read : Reads (block (Rules.within n) (statement n) setting) ts s rest) :
    ∃ used, ts = used ++ rest ∧ Statement (n + 1) setting.inLoop (doWord :: used) s := by
  simp only [block, reads_bind, reads_expect, reads_pure] at read
  obtain ⟨found, mid, first, endWord, tail, ⟨rfl, ended⟩, rfl, rfl⟩ := read
  obtain ⟨used, rfl, derived, -⟩ := sound_body nested first
  exact ⟨used ++ [endWord], by simp, .block keyword derived ended⟩

theorem sound_branch (nested : SoundStatement n) {setting : Setting} {ifWord : Token} {s : Stmt}
    (keyword : ifWord.kind = .ifWord)
    (read : Reads (branch (Rules.within n) (statement n) setting) ts s rest) :
    ∃ used, ts = used ++ rest ∧ Statement (n + 1) setting.inLoop (ifWord :: used) s := by
  simp only [branch, reads_bind, reads_expect] at read
  obtain ⟨c, mid, first, thenWord, tail, ⟨rfl, parted⟩, consequent, mid, second, read⟩ := read
  obtain ⟨cs, rfl, condition, -⟩ := sound_ruleAt n .expression first
  obtain ⟨xs, rfl, derived, -⟩ := sound_body nested second
  rw [← reads_bind, reads_accept_bind] at read
  obtain ⟨elseWord, mid, rfl, other, read⟩ | ⟨-, read⟩ := read
  · simp only [reads_bind, reads_expect, reads_pure] at read
    obtain ⟨alternate, mid, third, endWord, tail, ⟨rfl, ended⟩, rfl, rfl⟩ := read
    obtain ⟨es, rfl, derived', -⟩ := sound_body nested third
    refine ⟨cs ++ thenWord :: xs ++ elseWord :: es ++ [endWord], by simp, ?_⟩
    exact .branchElse keyword condition parted derived (by simpa using other) derived' ended
  · simp only [reads_bind, reads_expect, reads_pure] at read
    obtain ⟨alternate, mid, ⟨rfl, rfl⟩, endWord, tail, ⟨rfl, ended⟩, rfl, rfl⟩ := read
    refine ⟨cs ++ thenWord :: xs ++ [endWord], by simp, ?_⟩
    exact .branch keyword condition parted derived ended

theorem sound_whileLoop (nested : SoundStatement n) {setting : Setting} {whileWord : Token}
    {s : Stmt} (keyword : whileWord.kind = .whileWord)
    (read : Reads (whileLoop (Rules.within n) (statement n) setting) ts s rest) :
    ∃ used, ts = used ++ rest ∧ Statement (n + 1) setting.inLoop (whileWord :: used) s := by
  simp only [whileLoop, reads_bind, reads_pure] at read
  obtain ⟨c, mid, first, body, tail, second, rfl, rfl⟩ := read
  obtain ⟨cs, rfl, condition, halts⟩ := sound_ruleAt n .expression first
  obtain ⟨xs, rfl, derived⟩ := nested second
  refine ⟨cs ++ xs, by simp, .loop keyword condition derived ?_⟩
  intro t head minus
  have follows : t ∈ (xs ++ rest).head? := by simp [Option.mem_def.1 head]
  have stepping := halts t follows (by rw [minus]; decide)
  simp [steps, minus] at stepping

theorem sound_condition {closer : Kind} {found : Option Expr}
    (read : Reads (optionalExpression (Rules.within n) closer) ts found rest) :
    ∃ used, ts = used ++ rest ∧ Condition n used (found.getD (.literal (.bool true))) := by
  obtain ⟨rfl, rfl⟩ | ⟨used, e, rfl, derived, rfl⟩ := sound_optionalExpression read
  · exact ⟨[], rfl, .always⟩
  · exact ⟨used, rfl, .expr derived⟩

theorem sound_forLoop (nested : SoundStatement n) {setting : Setting} {forWord : Token} {s : Stmt}
    (keyword : forWord.kind = .forWord)
    (read : Reads (forLoop (Rules.within n) (statement n) setting) ts s rest) :
    ∃ used, ts = used ++ rest ∧ Statement (n + 1) setting.inLoop (forWord :: used) s := by
  simp only [forLoop, reads_bind, reads_expect, reads_pure] at read
  obtain ⟨opening, mid, ⟨rfl, opened⟩, initial, mid, first, condition, mid, second, semicolon, mid,
    ⟨rfl, ended⟩, increment, mid, third, closing, mid, ⟨rfl, closed⟩, body, mid, fourth,
    rfl, rfl⟩ :=
    read
  obtain ⟨is, rfl, initial⟩ := sound_initialStatement first
  obtain ⟨cs, rfl, condition⟩ := sound_condition second
  obtain ⟨xs, rfl, derived⟩ := nested fourth
  obtain ⟨rfl, rfl⟩ | ⟨us, u, whole, stepped, rfl⟩ := sound_optionalExpression third
  · refine ⟨opening :: is ++ cs ++ semicolon :: closing :: xs, by simp, ?_⟩
    exact .counting keyword opened initial condition ended closed derived
  · subst whole
    refine ⟨opening :: is ++ cs ++ semicolon :: us ++ closing :: xs, by simp, ?_⟩
    exact .countingBy keyword opened initial condition ended stepped closed derived

theorem sound_breakStatement {setting : Setting} {keyword : Token} {s : Stmt}
    (word : keyword.kind = .breakWord) (read : Reads (breakStatement setting keyword) ts s rest) :
    ∃ used, ts = used ++ rest ∧ Statement (n + 1) setting.inLoop (keyword :: used) s := by
  rw [breakStatement] at read
  cases inLoop : setting.inLoop with
  | false =>
    simp only [inLoop, Bool.not_false, if_true] at read
    obtain ⟨_, _, complained, -⟩ := reads_bind.1 read
    exact absurd complained not_reads_complain
  | true =>
    simp only [inLoop, Bool.not_true, Bool.false_eq_true, if_false, reads_bind, reads_expect,
      reads_pure] at read
    obtain ⟨semicolon, mid, ⟨rfl, ended⟩, rfl, rfl⟩ := read
    exact ⟨[semicolon], rfl, .leave word ended⟩

theorem sound_statementWith (nested : SoundStatement n) {setting : Setting} {s : Stmt}
    (read : Reads (statementWith (Rules.within n) (statement n) setting) ts s rest) :
    ∃ used, ts = used ++ rest ∧ Statement (n + 1) setting.inLoop used s := by
  rw [statementWith, reads_accept_bind] at read
  obtain ⟨keyword, mid, rfl, found, read⟩ | ⟨-, read⟩ := read
  · simp only [List.mem_cons, List.not_mem_nil, or_false] at found
    suffices ∃ used, mid = used ++ rest ∧
        Statement (n + 1) setting.inLoop (keyword :: used) s by
      obtain ⟨used, rfl, derived⟩ := this
      exact ⟨keyword :: used, rfl, derived⟩
    obtain word | word | word | word | word | word := found <;> simp only [word] at read
    · simp only [printStatement, reads_bind, reads_expect, reads_pure] at read
      obtain ⟨e, mid, first, semicolon, tail, ⟨rfl, ended⟩, rfl, rfl⟩ := read
      obtain ⟨used, rfl, derived, -⟩ := sound_ruleAt n .expression first
      exact ⟨used ++ [semicolon], by simp, .print word derived ended⟩
    · exact sound_block nested word read
    · exact sound_branch nested word read
    · exact sound_whileLoop nested word read
    · exact sound_forLoop nested word read
    · exact sound_breakStatement word read
  · obtain ⟨used, semicolon, e, rfl, derived, ended, rfl⟩ := sound_expressionStatement read
    exact ⟨used ++ [semicolon], by simp, .expr derived ended⟩

theorem sound_statement (n : Nat) : SoundStatement n := by
  induction n with
  | zero => exact fun _ _ _ _ read => absurd read not_reads_fail
  | succ n ih => exact fun _ _ _ _ read => sound_statementWith ih read

end Soundness

section Completeness

variable {n : Nat} {ts rest : List Token}

theorem complete_expression {e : Expr} (derived : Derives n .expression ts e)
    (stops : Stops .expression rest) : Reads (Rules.within n).expression (ts ++ rest) e rest :=
  (complete_leads derived).1 rest stops

theorem stops_of_kind {t : Token} {kind : Kind} (same : t.kind = kind)
    (outside : kind ∉ Level.expression.continuing) : Stops .expression (t :: rest) := by
  simpa [Stops, same] using outside

theorem complete_declaration {s : Stmt} (derived : Variable n ts s) :
    ∃ letWord us, ts = letWord :: us ∧ letWord.kind = .letWord ∧
      ∀ rest, Reads (declaration (Rules.within n)) (us ++ rest) s rest := by
  cases derived with
  | @bare letWord name semicolon keyword named ended =>
    refine ⟨letWord, [name, semicolon], rfl, keyword, fun rest => ?_⟩
    refine reads_bind.2 ⟨name, _, reads_expect.2 ⟨rfl, named⟩, reads_accept_bind.2 (.inr ⟨?_, ?_⟩)⟩
    · simp [ended]
    · simp only [reads_bind, reads_expect, reads_pure]
      exact ⟨none, _, ⟨rfl, rfl⟩, semicolon, rest, ⟨rfl, ended⟩, rfl, rfl⟩
  | @initial letWord name equal semicolon us e keyword named assigned derived ended =>
    refine ⟨letWord, name :: equal :: us ++ [semicolon], rfl, keyword, fun rest => ?_⟩
    have stops : Stops .expression (semicolon :: rest) := stops_of_kind ended (by decide)
    rw [List.append_assoc]
    refine reads_bind.2 ⟨name, _, reads_expect.2 ⟨rfl, named⟩, ?_⟩
    refine reads_accept_bind.2 (.inl ⟨equal, _, rfl, by simp [assigned], ?_⟩)
    simp only [reads_bind, reads_map, reads_expect, reads_pure]
    exact ⟨some e, _, ⟨e, complete_expression derived stops, rfl⟩, semicolon, rest, ⟨rfl, ended⟩,
      rfl, rfl⟩

theorem complete_expressionStatement {e : Expr} {semicolon : Token}
    (derived : Derives n .expression ts e) (ended : semicolon.kind = .semicolon)
    (rest : List Token) :
    Reads (expressionStatement (Rules.within n)) (ts ++ semicolon :: rest) (.expr e) rest := by
  have stops : Stops .expression (semicolon :: rest) := stops_of_kind ended (by decide)
  simp only [expressionStatement, reads_bind, reads_expect, reads_pure]
  exact ⟨e, _, complete_expression derived stops, semicolon, rest, ⟨rfl, ended⟩, rfl, rfl⟩

/-- The statement rule reads every derivation, whatever follows. -/
def CompleteStatement (n : Nat) : Prop :=
  ∀ ⦃setting : Setting⦄ ⦃ts : List Token⦄ ⦃s : Stmt⦄, Statement n setting.inLoop ts s →
    ∀ rest, Reads (statement n setting) (ts ++ rest) s rest

/-- The words that may close a body begin no statement. -/
def Closing (setting : Setting) : Prop :=
  ∀ k ∈ setting.closers, k ∉ Kind.letWord :: statementStarts

theorem complete_item (nested : CompleteStatement n) {setting : Setting} {s : Stmt}
    (derived : Variable n ts s ∨ Statement n setting.inLoop ts s) (rest : List Token) :
    Reads (item (Rules.within n) (statement n) setting) (ts ++ rest) s rest := by
  obtain declared | stated := derived
  · obtain ⟨letWord, us, rfl, keyword, read⟩ := complete_declaration declared
    exact reads_accept_bind.2 (.inl ⟨letWord, us ++ rest, rfl, by simp [keyword], read rest⟩)
  · obtain ⟨t, us, rfl, start⟩ := stated.starts
    refine reads_accept_bind.2 (.inr ⟨?_, nested stated rest⟩)
    intro u head
    have same : t = u := by simpa using head
    subst same
    revert start
    generalize t.kind = k
    revert k
    decide

theorem item_starts {inLoop : Bool} {s : Stmt}
    (derived : Variable n ts s ∨ Statement n inLoop ts s) :
    ∃ t us, ts = t :: us ∧ t.kind ∈ Kind.letWord :: statementStarts := by
  obtain declared | stated := derived
  · obtain ⟨letWord, us, rfl, keyword, -⟩ := complete_declaration declared
    exact ⟨letWord, us, rfl, by simp [keyword]⟩
  · obtain ⟨t, us, rfl, start⟩ := stated.starts
    exact ⟨t, us, rfl, List.mem_cons_of_mem _ start⟩

theorem entries_cons (nested : CompleteStatement n) {setting : Setting} (closing : Closing setting)
    {s : Stmt} (derived : Variable n ts s ∨ Statement n setting.inLoop ts s) (rest : List Token) :
    entries (entry (Rules.within n) (statement n)) setting (ts ++ rest) =
      ((some s :: ·) <$> entries (entry (Rules.within n) (statement n)) setting) rest := by
  have further := advancing_within n
  have advancing := advancing_statement n setting
  obtain ⟨t, us, rfl, start⟩ := item_starts derived
  have inside : t.kind ∉ setting.closers := fun closer => closing _ closer start
  have read : Reads (entry (Rules.within n) (statement n) setting) (t :: us ++ rest)
      (some s) rest :=
    (advancing_item further advancing).reads_recover.2
      ⟨s, rfl, complete_item nested derived rest⟩
  rw [List.cons_append,
    entries_of_inside (fun _ ts inside => entry_length_lt further advancing inside ts) inside,
    ← List.cons_append, bind_of_some _ read]
  rfl

/-- A derived body is read in front of anything, and reading goes on after it. -/
theorem entries_append (nested : CompleteStatement n) {setting : Setting}
    (closing : Closing setting)
    {body : List Stmt} (derived : Body n setting.inLoop ts body) (rest : List Token) :
    entries (entry (Rules.within n) (statement n)) setting (ts ++ rest) =
      ((body.map some ++ ·) <$> entries (entry (Rules.within n) (statement n)) setting) rest := by
  induction body generalizing ts with
  | nil =>
    cases derived
    simp [map_apply]
  | cons s others ih =>
    obtain ⟨xs, ys, rfl, one, derived⟩ : ∃ xs ys, ts = xs ++ ys ∧
        (Variable n xs s ∨ Statement n setting.inLoop xs s) ∧ Body n setting.inLoop ys others := by
      cases derived with
      | declare declared derived => exact ⟨_, _, rfl, .inl declared, derived⟩
      | cons stated derived => exact ⟨_, _, rfl, .inr stated, derived⟩
    rw [List.append_assoc, entries_cons nested closing one, map_apply, ih derived, map_apply,
      map_apply, Option.map_map]
    rfl

theorem complete_body (nested : CompleteStatement n) {setting : Setting} (closing : Closing setting)
    {body : List Stmt} (derived : Body n setting.inLoop ts body)
    (closed : ∀ t ∈ rest.head?, t.kind ∈ setting.closers) :
    Reads (Parser.body (Rules.within n) (statement n) setting) (ts ++ rest) body rest := by
  have read : Reads (entries (entry (Rules.within n) (statement n)) setting) (ts ++ rest)
      (body.map some) rest := by
    rw [Reads, entries_append nested closing derived, map_apply, entries_of_closed closed]
    simp
  refine reads_bind.2 ⟨_, rest, read, reads_pure.2 ⟨?_, rfl⟩⟩
  simp [List.filterMap_map]

theorem complete_initialStatement {initial : Option Stmt} (derived : Initial n ts initial)
    (rest : List Token) : Reads (initialStatement (Rules.within n)) (ts ++ rest) initial rest := by
  cases derived with
  | none ended =>
    refine reads_accept_bind.2 (.inl ⟨_, rest, rfl, by simp [ended], ?_⟩)
    exact reads_pure.2 ⟨rfl, rfl⟩
  | declare declared =>
    obtain ⟨letWord, us, rfl, keyword, read⟩ := complete_declaration declared
    refine reads_accept_bind.2 (.inr ⟨by simp [keyword], ?_⟩)
    refine reads_accept_bind.2 (.inl ⟨letWord, us ++ rest, rfl, by simp [keyword], ?_⟩)
    exact reads_map.2 ⟨_, read rest, rfl⟩
  | @expr semicolon us e derived ended =>
    have start := derived.head (semicolon :: rest)
    have other : ∀ k ∈ Level.expression.starting, k ∉ [Kind.semicolon] ∧ k ∉ [Kind.letWord] := by
      decide
    rw [List.append_assoc]
    refine reads_accept_bind.2 (.inr ⟨fun t head => (other _ (start t head)).1, ?_⟩)
    refine reads_accept_bind.2 (.inr ⟨fun t head => (other _ (start t head)).2, ?_⟩)
    exact reads_map.2 ⟨_, complete_expressionStatement derived ended rest, rfl⟩

theorem complete_optionalExpression {e : Expr} {t : Token} {closer : Kind}
    (closed : t.kind = closer)
    (outside : closer ∉ Level.expression.continuing ∧ closer ∉ Level.expression.starting)
    (derived : Derives n .expression ts e) (rest : List Token) :
    Reads (optionalExpression (Rules.within n) closer) (ts ++ t :: rest) (some e) (t :: rest) := by
  have stops : Stops .expression (t :: rest) := stops_of_kind closed outside.1
  have read := complete_expression derived stops
  obtain ⟨u, us, rfl, start⟩ := derived.starts
  have other : u.kind ≠ closer := fun same => outside.2 (same ▸ start)
  simp only [optionalExpression, reads_next_bind, List.cons_append, List.head?_cons,
    other, if_false]
  exact reads_map.2 ⟨e, read, rfl⟩

theorem complete_noExpression {t : Token} {closer : Kind} (closed : t.kind = closer)
    (rest : List Token) :
    Reads (optionalExpression (Rules.within n) closer) (t :: rest) none (t :: rest) := by
  rw [optionalExpression, reads_next_bind]
  simp [closed]

theorem complete_condition {c : Expr} {semicolon : Token} (ended : semicolon.kind = .semicolon)
    (derived : Condition n ts c) (rest : List Token) :
    ∃ found, found.getD (.literal (.bool true)) = c ∧
      Reads (optionalExpression (Rules.within n) .semicolon) (ts ++ semicolon :: rest) found
        (semicolon :: rest) := by
  cases derived with
  | always => exact ⟨none, rfl, complete_noExpression ended rest⟩
  | expr derived => exact ⟨some c, rfl, complete_optionalExpression ended (by decide) derived rest⟩

theorem complete_keyword {setting : Setting} {keyword : Token} {s : Stmt} {p : Parser Stmt}
    (found : keyword.kind ∈ [.printWord, .doWord, .ifWord, .whileWord, .forWord, .breakWord])
    (chosen : (match keyword.kind with
      | .printWord => printStatement (Rules.within n) keyword
      | .doWord => block (Rules.within n) (statement n) setting
      | .ifWord => branch (Rules.within n) (statement n) setting
      | .whileWord => whileLoop (Rules.within n) (statement n) setting
      | .forWord => forLoop (Rules.within n) (statement n) setting
      | _ => breakStatement setting keyword) = p)
    (read : Reads p ts s rest) :
    Reads (statement (n + 1) setting) (keyword :: ts) s rest := by
  refine reads_accept_bind.2 (.inl ⟨keyword, ts, rfl, found, ?_⟩)
  subst chosen
  exact read

theorem complete_closedBy (nested : CompleteStatement n) (setting : Setting) {closers : List Kind}
    (allowed : ∀ k ∈ closers, k ∈ [Kind.elseWord, .endWord]) {body : List Stmt} {closer : Token}
    (derived : Body n setting.inLoop ts body) (closed : closer.kind ∈ closers) (rest : List Token) :
    Reads (Parser.body (Rules.within n) (statement n) (setting.closedBy closers))
      (ts ++ closer :: rest) body (closer :: rest) := by
  have outside : ∀ k ∈ [Kind.elseWord, .endWord], k ∉ Kind.letWord :: statementStarts := by decide
  have closing : Closing (setting.closedBy closers) := fun k found => outside k (allowed k found)
  have ahead : ∀ t ∈ (closer :: rest).head?, t.kind ∈ (setting.closedBy closers).closers := by
    simpa [Setting.closedBy] using closed
  exact complete_body nested closing derived ahead

theorem complete_block (nested : CompleteStatement n) {setting : Setting} {body : List Stmt}
    {endWord : Token} (derived : Body n setting.inLoop ts body) (ended : endWord.kind = .endWord)
    (rest : List Token) :
    Reads (block (Rules.within n) (statement n) setting) (ts ++ endWord :: rest) (.block body)
      rest := by
  have closed : endWord.kind ∈ [Kind.endWord] := by simp [ended]
  have inner := complete_closedBy nested setting (by decide) derived closed rest
  simp only [block, reads_bind, reads_expect, reads_pure]
  exact ⟨body, _, inner, endWord, rest, ⟨rfl, ended⟩, rfl, rfl⟩

section Branch

variable {setting : Setting} {thenWord elseWord endWord : Token} {cs es : List Token} {c : Expr}
  {consequent alternate : List Stmt}

theorem complete_branch (nested : CompleteStatement n) (condition : Derives n .expression cs c)
    (parted : thenWord.kind = .thenWord) (derived : Body n setting.inLoop ts consequent)
    (ended : endWord.kind = .endWord) (rest : List Token) :
    Reads (branch (Rules.within n) (statement n) setting)
      (cs ++ thenWord :: (ts ++ endWord :: rest))
      (.branch c consequent []) rest := by
  have stops : Stops .expression (thenWord :: (ts ++ endWord :: rest)) :=
    stops_of_kind parted (by decide)
  have closed : endWord.kind ∈ [Kind.elseWord, .endWord] := by simp [ended]
  have inner := complete_closedBy nested setting (by decide) derived closed rest
  simp only [branch, reads_bind, reads_expect]
  refine ⟨c, _, complete_expression condition stops, thenWord, _, ⟨rfl, parted⟩, consequent, _,
    inner, ?_⟩
  rw [← reads_bind, reads_accept_bind]
  refine .inr ⟨by simp [ended], ?_⟩
  simp only [reads_bind, reads_expect, reads_pure]
  exact ⟨[], _, ⟨rfl, rfl⟩, endWord, rest, ⟨rfl, ended⟩, rfl, rfl⟩

theorem complete_branchElse (nested : CompleteStatement n) (condition : Derives n .expression cs c)
    (parted : thenWord.kind = .thenWord) (derived : Body n setting.inLoop ts consequent)
    (other : elseWord.kind = .elseWord) (derived' : Body n setting.inLoop es alternate)
    (ended : endWord.kind = .endWord) (rest : List Token) :
    Reads (branch (Rules.within n) (statement n) setting)
      (cs ++ thenWord :: (ts ++ elseWord :: (es ++ endWord :: rest)))
      (.branch c consequent alternate) rest := by
  have stops : Stops .expression (thenWord :: (ts ++ elseWord :: (es ++ endWord :: rest))) :=
    stops_of_kind parted (by decide)
  have closed : elseWord.kind ∈ [Kind.elseWord, .endWord] := by simp [other]
  have inner := complete_closedBy nested setting (by decide) derived closed (es ++ endWord :: rest)
  have closed' : endWord.kind ∈ [Kind.endWord] := by simp [ended]
  have inner' := complete_closedBy nested setting (by decide) derived' closed' rest
  simp only [branch, reads_bind, reads_expect]
  refine ⟨c, _, complete_expression condition stops, thenWord, _, ⟨rfl, parted⟩, consequent, _,
    inner, ?_⟩
  rw [← reads_bind, reads_accept_bind]
  refine .inl ⟨elseWord, _, rfl, by simp [other], ?_⟩
  simp only [reads_bind, reads_expect, reads_pure]
  exact ⟨alternate, _, inner', endWord, rest, ⟨rfl, ended⟩, rfl, rfl⟩

end Branch

theorem complete_whileLoop (nested : CompleteStatement n) {setting : Setting} {cs : List Token}
    {c : Expr} {body : Stmt} (condition : Derives n .expression cs c)
    (derived : Statement n true ts body) (unsigned : ∀ t ∈ ts.head?, t.kind ≠ .minus)
    (rest : List Token) :
    Reads (whileLoop (Rules.within n) (statement n) setting) (cs ++ (ts ++ rest)) (.loop c body)
      rest := by
  -- No token but a minus sign both begins a statement and goes on with an expression.
  have apart : ∀ k ∈ statementStarts, k ≠ .minus → k ∉ Level.expression.continuing := by decide
  have stops : Stops .expression (ts ++ rest) := by
    obtain ⟨t, us, rfl, start⟩ := derived.starts
    simpa [Stops] using apart t.kind start (unsigned t rfl)
  simp only [whileLoop, reads_bind, reads_pure]
  exact ⟨c, _, complete_expression condition stops, body, rest, nested derived rest, rfl, rfl⟩

section Counting

variable {setting : Setting} {opening semicolon closing : Token} {is cs us : List Token}
  {initial : Option Stmt} {c u : Expr} {body : Stmt}

theorem complete_counting (nested : CompleteStatement n) (opened : opening.kind = .leftParen)
    (begun : Initial n is initial) (condition : Condition n cs c)
    (ended : semicolon.kind = .semicolon) (closed : closing.kind = .rightParen)
    (derived : Statement n true ts body) (rest : List Token) :
    Reads (forLoop (Rules.within n) (statement n) setting)
      (opening :: (is ++ (cs ++ semicolon :: closing :: (ts ++ rest))))
      (.block (initial.toList ++ [.loop c body])) rest := by
  have first := complete_initialStatement begun (cs ++ semicolon :: closing :: (ts ++ rest))
  obtain ⟨found, rfl, second⟩ := complete_condition ended condition (closing :: (ts ++ rest))
  have third := complete_noExpression (n := n) closed (ts ++ rest)
  simp only [forLoop, reads_bind, reads_expect, reads_pure]
  exact ⟨opening, _, ⟨rfl, opened⟩, initial, _, first, found, _, second, semicolon, _, ⟨rfl, ended⟩,
    none, _, third, closing, _, ⟨rfl, closed⟩, body, rest, nested derived rest, rfl, rfl⟩

theorem complete_countingBy (nested : CompleteStatement n) (opened : opening.kind = .leftParen)
    (begun : Initial n is initial) (condition : Condition n cs c)
    (ended : semicolon.kind = .semicolon) (stepped : Derives n .expression us u)
    (closed : closing.kind = .rightParen) (derived : Statement n true ts body)
    (rest : List Token) :
    Reads (forLoop (Rules.within n) (statement n) setting)
      (opening :: (is ++ (cs ++ semicolon :: (us ++ closing :: (ts ++ rest)))))
      (.block (initial.toList ++ [.loop c (.block [body, .expr u])])) rest := by
  have first := complete_initialStatement begun
    (cs ++ semicolon :: (us ++ closing :: (ts ++ rest)))
  obtain ⟨found, rfl, second⟩ := complete_condition ended condition
    (us ++ closing :: (ts ++ rest))
  have third := complete_optionalExpression closed (by decide) stepped (ts ++ rest)
  simp only [forLoop, reads_bind, reads_expect, reads_pure]
  exact ⟨opening, _, ⟨rfl, opened⟩, initial, _, first, found, _, second, semicolon, _, ⟨rfl, ended⟩,
    some u, _, third, closing, _, ⟨rfl, closed⟩, body, rest, nested derived rest, rfl, rfl⟩

end Counting

theorem complete_statement (n : Nat) : CompleteStatement n := by
  induction n with
  | zero => exact fun _ _ _ derived => nomatch derived
  | succ n ih =>
    intro setting ts s derived rest
    generalize inLoop : setting.inLoop = looped at derived
    cases derived with
    | @expr _ _ semicolon us e derived ended =>
      have start := derived.head (semicolon :: rest)
      have other : ∀ k ∈ Level.expression.starting,
          k ∉ [Kind.printWord, .doWord, .ifWord, .whileWord, .forWord, .breakWord] := by decide
      rw [List.append_assoc]
      refine reads_accept_bind.2 (.inr ⟨fun t head => other _ (start t head), ?_⟩)
      exact complete_expressionStatement derived ended rest
    | @print _ _ keyword semicolon us e word derived ended =>
      have stops : Stops .expression (semicolon :: rest) := stops_of_kind ended (by decide)
      rw [List.append_assoc]
      refine complete_keyword (by simp [word]) (by simp only [word]; rfl) ?_
      simp only [printStatement, reads_bind, reads_expect, reads_pure]
      exact ⟨e, _, complete_expression derived stops, semicolon, rest, ⟨rfl, ended⟩, rfl, rfl⟩
    | block word derived ended =>
      subst inLoop
      rw [List.append_assoc]
      refine complete_keyword (by simp [word]) (by simp only [word]; rfl) ?_
      exact complete_block ih derived ended rest
    | branch word condition parted derived ended =>
      subst inLoop
      simp only [List.append_assoc, List.cons_append, List.nil_append]
      refine complete_keyword (by simp [word]) (by simp only [word]; rfl) ?_
      exact complete_branch ih condition parted derived ended rest
    | branchElse word condition parted derived other derived' ended =>
      subst inLoop
      simp only [List.append_assoc, List.cons_append, List.nil_append]
      refine complete_keyword (by simp [word]) (by simp only [word]; rfl) ?_
      exact complete_branchElse ih condition parted derived other derived' ended rest
    | loop word condition derived unsigned =>
      simp only [List.append_assoc, List.cons_append]
      refine complete_keyword (by simp [word]) (by simp only [word]; rfl) ?_
      exact complete_whileLoop ih condition derived unsigned rest
    | counting word opened begun condition ended closed derived =>
      simp only [List.append_assoc, List.cons_append]
      refine complete_keyword (by simp [word]) (by simp only [word]; rfl) ?_
      exact complete_counting ih opened begun condition ended closed derived rest
    | countingBy word opened begun condition ended stepped closed derived =>
      simp only [List.append_assoc, List.cons_append]
      refine complete_keyword (by simp [word]) (by simp only [word]; rfl) ?_
      exact complete_countingBy ih opened begun condition ended stepped closed derived rest
    | @leave _ keyword semicolon word ended =>
      refine complete_keyword (by simp [word]) (by simp only [word]; rfl) ?_
      simp only [breakStatement, inLoop, Bool.not_true, Bool.false_eq_true, if_false, reads_bind,
        reads_expect, reads_pure]
      exact ⟨semicolon, rest, ⟨rfl, ended⟩, trivial, rfl⟩

end Completeness

theorem reads_program {ts rest : List Token} {entries : List (Option Stmt)}
    (read : Reads program ts entries rest) :
    rest = [] ∧ ∃ trees, Program ts trees ∧ entries = trees.map some := by
  obtain ⟨used, trees, rfl, derived, rfl, closed⟩ :=
    sound_entries (sound_statement nestingLimit) read
  have finished : rest = [] := by
    cases rest with
    | nil => rfl
    | cons t rest => exact absurd (closed t rfl) (by simp [Setting.top])
  subst finished
  exact ⟨rfl, trees, by rw [List.append_nil]; exact derived, rfl⟩

theorem program_append {ts : List Token} {trees : List Stmt} (derived : Program ts trees)
    (rest : List Token) : program (ts ++ rest) = ((trees.map some ++ ·) <$> program) rest := by
  have body : Body nestingLimit Setting.top.inLoop ts trees := derived
  have closing : Closing .top := by simp [Closing, Setting.top]
  exact entries_append (complete_statement nestingLimit) closing body rest

theorem reads_program_of_derived {ts : List Token} {trees : List Stmt}
    (derived : Program ts trees) :
    Reads program ts (trees.map some) [] := by
  have read := program_append derived []
  rw [List.append_nil, map_apply, program_nil] at read
  simpa [Reads] using read

theorem derived_of_silent {ts : List Token} (silent : (program ts).complaints = []) :
    ∃ trees, Program ts trees ∧ Reads program ts (trees.map some) [] := by
  match read : program ts with
  | ⟨none, rest, complaints⟩ =>
    have loud := orderly_program.loud ts
    rw [read] at loud silent
    exact absurd silent (loud rfl)
  | ⟨some entries, rest, complaints⟩ =>
    rw [read] at silent
    cases silent
    obtain ⟨rfl, trees, derived, rfl⟩ := reads_program read
    exact ⟨trees, derived, read⟩

/-- Programs are accepted exactly as the grammar says. A list of tokens before its closing one is
read without a report if and only if the grammar derives it, and then the trees are those of the
grammar, with no gap. -/
theorem parse_iff_derived (ts : List Token) (closing : Token) (bare : ∀ t ∈ ts, t.kind ≠ .finish)
    (closed : closing.kind = .finish) :
    ((parse (ts ++ [closing])).reports = [] ↔ ∃ trees, Program ts trees) ∧
      ∀ trees, Program ts trees ↔
        parse (ts ++ [closing]) = ⟨.program (trees.map some), []⟩ := by
  have content : Reading.content (ts ++ [closing]) = ts := Reading.content_append bare closed []
  have forward {trees : List Stmt} (derived : Program ts trees) :
      parse (ts ++ [closing]) = ⟨.program (trees.map some), []⟩ := by
    have read := reads_program_of_derived derived
    rw [Reads] at read
    simp [parse, content, read, Reading.of]
  have backward (silent : (parse (ts ++ [closing])).reports = []) :
      ∃ trees, Program ts trees := by
    have quiet : (program ts).complaints = [] := by
      simpa [parse, content, Reading.of] using silent
    obtain ⟨trees, derived, -⟩ := derived_of_silent quiet
    exact ⟨trees, derived⟩
  refine ⟨⟨backward, ?_⟩, fun trees => ⟨forward, ?_⟩⟩
  · rintro ⟨trees, derived⟩
    rw [forward derived]
  · intro whole
    obtain ⟨found, derived⟩ := backward (by rw [whole])
    have same := (forward derived).symm.trans whole
    simp only [Reading.mk.injEq, Parsed.program.injEq, and_true] at same
    have equal : found = trees := (List.map_inj_right fun _ _ => Option.some.inj).1 same
    exact equal ▸ derived

def countingSample : Scan :=
  scan "for (let i = 0; i < 3; i++) if i == 1 then break; else i += !i ? -i : 2; end"

theorem countingSample_derived :
    (∀ t ∈ Reading.content countingSample.tokens, t.kind ≠ .finish) ∧
      (Token.finish ⟨1, 78⟩).kind = .finish ∧
      ∃ trees, Program (Reading.content countingSample.tokens) trees := by
  have bare : ∀ t ∈ Reading.content countingSample.tokens, t.kind ≠ .finish := by decide +kernel
  have silent :
      (parse (Reading.content countingSample.tokens ++ [.finish ⟨1, 78⟩])).reports = [] := by
    decide +kernel
  exact ⟨bare, rfl, (parse_iff_derived _ (.finish ⟨1, 78⟩) bare rfl).1.1 silent⟩

end Scriptlet.Grammar
