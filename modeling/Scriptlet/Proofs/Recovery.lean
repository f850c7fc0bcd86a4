import Scriptlet.Proofs.Fences

/-! What a mistake in a body costs. Whatever stands before the word that closes a body, no rule takes
that word and no recovery skips it, so the body ends there and the text after it is read as on its
own. -/
namespace Scriptlet

def Without (kinds : List Kind) (ts : List Token) : Prop :=
  ∀ t ∈ ts, t.kind ∉ kinds

instance (kinds : List Kind) (ts : List Token) : Decidable (Without kinds ts) :=
  inferInstanceAs (Decidable (∀ t ∈ ts, t.kind ∉ kinds))

theorem Without.suffix {kinds : List Kind} {ts left : List Token} (without : Without kinds ts)
    (suffix : left <:+ ts) : Without kinds left :=
  fun t member => without t (suffix.subset member)

theorem Without.mono {kinds fewer : List Kind} {ts : List Token} (without : Without kinds ts)
    (subset : fewer ⊆ kinds) : Without fewer ts :=
  fun t member word => without t member (subset word)

@[simp] theorem without_append {kinds : List Kind} {ts us : List Token} :
    Without kinds (ts ++ us) ↔ Without kinds ts ∧ Without kinds us :=
  List.forall_mem_append

@[simp] theorem without_nil {kinds : List Kind} : Without kinds [] := by
  simp [Without]

@[simp] theorem without_cons {kinds : List Kind} {t : Token} {ts : List Token} :
    Without kinds (t :: ts) ↔ t.kind ∉ kinds ∧ Without kinds ts :=
  List.forall_mem_cons

/-- The second reading is the first with one more entry and its reports in front. -/
def Reading.Follows (first : Option Stmt) (reports : Reports) (rest whole : Reading) : Prop :=
  ∃ entries, rest.parsed = .program entries ∧ whole.parsed = .program (first :: entries) ∧
    whole.reports = reports ++ rest.reports

theorem Reading.follows_of_entry {ts later : List Token} (any : ts ≠ [])
    (bare : Without [.finish] ts) {first : Option Stmt} {cs : List Complaint}
    (read : Parser.entry (Rules.within nestingLimit) (Parser.statement nestingLimit) .top
      (ts ++ content later) = ⟨some first, content later, cs⟩) :
    Follows first (cs.map (·.report (closing later))) (parse later) (parse (ts ++ later)) := by
  have content : content (ts ++ later) = ts ++ content later :=
    List.takeWhile_append_of_pos (by simpa [Without] using bare)
  have closed : closing (ts ++ later) = closing later := by
    have none : ts.find? (·.kind == .finish) = none := by simpa [Without] using bare
    rw [Reading.closing, List.find?_append, none]
    rfl
  obtain ⟨t, ts, rfl⟩ := List.exists_cons_of_ne_nil any
  obtain ⟨one, mid, complaints, again, -, program⟩ :=
    Parser.program_cons t (ts ++ Reading.content later)
  rw [List.cons_append] at read content closed ⊢
  obtain ⟨same, rfl, rfl⟩ := Step.mk.inj (again.symm.trans read)
  obtain rfl := Option.some.inj same
  obtain ⟨entries, rest, further, rested⟩ :=
    Parser.unfailing_program.exists_read (Reading.content later)
  refine ⟨entries, ?_, ?_, ?_⟩
  · simp [parse, Reading.of, rested]
  · simp [parse, Reading.of, content, program, rested]
  · simp [parse, Reading.of, content, closed, program, rested]

namespace Parser

variable {α β : Type} {us : List Token} {p : Parser α} {f : α → Parser β}

/-- A reader that takes nothing of what follows some tokens among which no body opens. -/
def StopsBefore (us : List Token) (p : Parser α) : Prop :=
  ∀ g, Without [.doWord, .ifWord] g → ∃ left, left <:+ g ∧ (p (g ++ us)).rest = left ++ us

namespace StopsBefore

theorem of_still (still : ∀ ts, (p ts).rest = ts) : StopsBefore us p :=
  fun g _ => ⟨g, List.suffix_rfl, still _⟩

theorem of_fenced (orderly : Orderly p) (fenced : Fenced us p) : StopsBefore us p := by
  intro g _
  refine ⟨(p g).rest, orderly.suffix g, ?_⟩
  have step := fenced g
  generalize p g = x, p (g ++ us) = y at step
  cases step <;> rfl

theorem bind (first : StopsBefore us p) (next : ∀ a, Yields p a → StopsBefore us (f a)) :
    StopsBefore us (p >>= f) := by
  intro g bodiless
  obtain ⟨mid, taken, stopped⟩ := first g bodiless
  match read : p (g ++ us) with
  | ⟨none, rest, complaints⟩ =>
    rw [read] at stopped
    rw [bind_of_none f read]
    exact ⟨mid, taken, stopped⟩
  | ⟨some a, rest, complaints⟩ =>
    rw [read] at stopped
    obtain rfl : rest = mid ++ us := stopped
    rw [bind_of_some f read]
    obtain ⟨left, further, stopped⟩ := next a ⟨_, by rw [read]⟩ mid (bodiless.suffix taken)
    exact ⟨left, further.trans taken, stopped⟩

theorem accept_bind {kinds : List Kind} (apart : ∀ t ∈ us.head?, t.kind ∉ kinds)
    {f : Option Token → Parser β}
    (found : ∀ t, t.kind ∈ kinds → t.kind ∉ [.doWord, .ifWord] → StopsBefore us (f (some t)))
    (none : StopsBefore us (f none)) : StopsBefore us (accept kinds >>= f) := by
  intro g bodiless
  match g with
  | [] =>
    rw [List.nil_append, accept_bind_not_mem f apart]
    exact none [] bodiless
  | t :: g =>
    by_cases member : t.kind ∈ kinds
    · rw [List.cons_append, accept_bind_mem f member]
      obtain ⟨first, others⟩ := List.forall_mem_cons.1 bodiless
      obtain ⟨left, taken, stopped⟩ := found t member first g others
      exact ⟨left, taken.trans (List.suffix_cons t g), stopped⟩
    · rw [accept_bind_not_mem f (by simpa using member)]
      exact none (t :: g) bodiless

theorem accept {kinds : List Kind} (apart : ∀ t ∈ us.head?, t.kind ∉ kinds) :
    StopsBefore us (accept kinds) := by
  rw [← bind_pure_eq (Parser.accept kinds)]
  exact accept_bind apart (fun _ _ _ => .of_still fun _ => rfl) (.of_still fun _ => rfl)

theorem expect {kind : Kind} (apart : ∀ t ∈ us.head?, t.kind ∉ [kind]) (m : Mistake) :
    StopsBefore us (expect kind m) :=
  accept_bind apart (fun _ _ _ => .of_still fun _ => rfl) (.of_still fun _ => rfl)

end StopsBefore

def Closing (us : List Token) : Prop :=
  ∀ t ∈ us.head?, t.kind ∈ [.elseWord, .endWord]

theorem Closing.apart (closing : Closing us) {kinds : List Kind}
    (others : ∀ kind ∈ [Kind.elseWord, .endWord], kind ∉ kinds) : ∀ t ∈ us.head?, t.kind ∉ kinds :=
  fun t first => others t.kind (closing t first)

theorem Fenced.reads_append (fenced : Fenced us p) {ts : List Token} {a : α} :
    Reads p (ts ++ us) a us ↔ Reads p ts a [] := by
  have step := fenced ts
  simp only [Reads]
  generalize p ts = x, p (ts ++ us) = y at step
  cases step with
  | yield => simp
  | failure => simp

theorem Reads.without {depth : Nat} {ts : List Token} {e : Expr}
    (read : Reads (Rules.within depth).expression ts e []) {kinds : List Kind}
    (others : ∀ kind ∈ kinds, kind ∉ Kind.inExpressions) : Without kinds ts := by
  intro t member other
  obtain ⟨before, after, rfl⟩ := List.append_of_mem member
  have fence : Fence (t :: after) := by simpa [Fence] using others t.kind other
  -- such a token and all that follows it would be left over
  have step := (fenced_within fence depth).expression before
  rw [Reads] at read
  rw [read] at step
  generalize (Rules.within depth).expression before = x at step
  generalize same : (⟨some e, [], []⟩ : Step Expr) = y at step
  cases step <;> simp at same

theorem passesOn_stopsBefore (fence : Fence us) :
    PassesOn (fun kind => ∀ t ∈ us.head?, t.kind ≠ kind) fun _ _ p => StopsBefore us p where
  usual _ usual t first same := fence t first (same ▸ usual)
  relax := id
  pure _ := .of_still fun _ => rfl
  bind := .bind
  fail _ := .of_still fun _ => rfl
  accept_bind fine found absent :=
    .accept_bind (fun t first member => fine t.kind member t first rfl)
      (fun t member _ => found t member) absent

theorem passes_stopsBefore (fence : Fence us) :
    Passes (fun kind => ∀ t ∈ us.head?, t.kind ≠ kind) fun _ _ p => StopsBefore us p where
  toPassesOn := passesOn_stopsBefore fence
  atom := .of_fenced advancing_atom.toOrderly (fenced_atom fence)
  chainRest := (passesOn_stopsBefore fence).chainRest (.of_still fun _ => rfl)
  dropValue := (passesOn_stopsBefore fence).dropValue fun _ => .of_still fun _ => rfl

section Statements

variable (closing : Closing us)

include closing

theorem Closing.other {kind : Kind} (other : kind ∉ [Kind.elseWord, .endWord]) :
    ∀ t ∈ us.head?, t.kind ≠ kind :=
  fun t first same => other (same ▸ closing t first)

theorem stopsBefore_statement (depth : Nat) (setting : Setting) :
    StopsBefore us (statement depth setting) := by
  have passes := passes_stopsBefore (closing.apart (by decide) : Fence us)
  have ends : ∀ t ∈ us.head?, t.kind ≠ .semicolon := closing.other (by decide)
  induction depth generalizing setting with
  | zero => exact .of_still fun _ => rfl
  | succ depth ih =>
    have further := passes.within depth
    refine .accept_bind (closing.apart (by decide)) (fun keyword _ bodiless => ?_)
      (passes.expressionStatement ends further)
    dsimp only
    split
    · exact passes.printStatement ends further ‹_›
    -- the two words that would open a body are not there
    · rename_i word
      simp [word] at bodiless
    · rename_i word
      simp [word] at bodiless
    · exact passes.whileLoop further ih
    · exact passes.forLoop ends further ih (.of_still fun _ => rfl) (closing.other (by decide))
    · exact passes.breakStatement ends (.of_still fun _ => rfl)

end Statements

theorem skipAfter_stops {u : Token} (stays : u.kind ∈ Kind.resuming) (last : Token)
    (g later : List Token) :
    ∃ left, left <:+ g ∧ skipAfter last (g ++ u :: later) = left ++ u :: later := by
  induction g generalizing last with
  | nil => exact ⟨[], List.suffix_rfl, by simp [skipAfter, stays]⟩
  | cons t g ih =>
    rw [List.cons_append, skipAfter]
    split
    · exact ⟨t :: g, List.suffix_rfl, rfl⟩
    · obtain ⟨left, skipped, stopped⟩ := ih t
      exact ⟨left, skipped.trans (List.suffix_cons t g), stopped⟩

/-- Recovery does not skip the word that closes the body. -/
theorem resume_stops {u : Token} {closers : List Kind} (closes : u.kind ∈ closers)
    (stays : u.kind ∈ Kind.resuming) (g later : List Token) :
    ∃ left, left <:+ g ∧ resume closers (g ++ u :: later) = left ++ u :: later := by
  cases g with
  | nil => exact ⟨[], List.suffix_rfl, by simp [resume, closes]⟩
  | cons t g =>
    rw [List.cons_append, resume]
    split
    · exact ⟨t :: g, List.suffix_rfl, rfl⟩
    · obtain ⟨left, skipped, stopped⟩ := skipAfter_stops stays t g later
      exact ⟨left, skipped.trans (List.suffix_cons t g), stopped⟩

theorem fence_then {t : Token} (after : t.kind = .thenWord) (us : List Token) : Fence (t :: us) := by
  simp [Fence, after, Kind.inExpressions]

section Bodies

variable (depth : Nat) (setting : Setting) {u : Token} (later : List Token)

theorem stopsBefore_entry (closing : u.kind ∈ [.elseWord, .endWord]) (closes : u.kind ∈ setting.closers) :
    StopsBefore (u :: later) (entry (Rules.within depth) (statement depth) setting) := by
  have ahead : Closing (u :: later) := by simpa [Closing] using closing
  have passes := passes_stopsBefore (ahead.apart (by decide) : Fence (u :: later))
  have item : StopsBefore (u :: later) (item (Rules.within depth) (statement depth) setting) :=
    .accept_bind (ahead.apart (by decide))
      (fun _ _ _ => passes.declaration (ahead.other (by decide)) (passes.within depth))
      (stopsBefore_statement ahead depth setting)
  have stays : u.kind ∈ Kind.resuming := by
    have words : ∀ kind ∈ [Kind.elseWord, .endWord], kind ∈ Kind.resuming := by decide
    exact words _ closing
  intro g bodiless
  obtain ⟨mid, taken, stopped⟩ := item g bodiless
  rw [entry_eq, recover]
  split <;> rename_i read <;> rw [read] at stopped
  · exact ⟨mid, taken, stopped⟩
  · obtain ⟨left, skipped, resumed⟩ := resume_stops closes stays mid later
    obtain rfl : _ = mid ++ u :: later := stopped
    exact ⟨left, skipped.trans taken, resumed⟩

/-- Every entry of a body leaves the word that closes it, so the entries end there. -/
theorem entries_rest (closing : u.kind ∈ [.elseWord, .endWord]) (closes : u.kind ∈ setting.closers)
    (g : List Token) (bodiless : Without [.doWord, .ifWord] g) (inside : Without setting.closers g) :
    (entries (entry (Rules.within depth) (statement depth)) setting (g ++ u :: later)).rest =
      u :: later := by
  match g with
  | [] => rw [List.nil_append, entries_of_closed (by simpa using closes)]
  | t :: g =>
    have shrinks := fun (t : Token) ts (inside : t.kind ∉ setting.closers) =>
      entry_length_lt (advancing_within depth) (advancing_statement depth setting) inside ts
    have first := inside t List.mem_cons_self
    obtain ⟨one, rest, complaints, read⟩ :=
      (unfailing_entry (Rules.within depth) (statement depth) setting).exists_read
        (t :: (g ++ u :: later))
    obtain ⟨left, taken, stopped⟩ := stopsBefore_entry depth setting later closing closes (t :: g) bodiless
    rw [List.cons_append, read] at stopped
    obtain rfl : rest = left ++ u :: later := stopped
    -- the entry took a token, so less is left before the closing word
    have fewer : left.length < (t :: g).length := by
      have shorter := shrinks t (g ++ u :: later) first
      rw [read] at shorter
      simp only [List.length_append, List.length_cons] at shorter ⊢
      omega
    have others := entries_rest closing closes left (bodiless.suffix taken) (inside.suffix taken)
    obtain ⟨found, rest, complaints', further⟩ :=
      (unfailing_entries (Rules.within depth) (statement depth) setting).exists_read
        (left ++ u :: later)
    rw [further] at others
    rw [List.cons_append, entries_of_inside shrinks first, bind_of_some _ read,
      bind_of_some _ further]
    exact others
termination_by g.length
decreasing_by simpa using fewer

theorem body_closes (closing : u.kind ∈ [.elseWord, .endWord]) (closes : u.kind ∈ setting.closers)
    {g : List Token} (bodiless : Without [.doWord, .ifWord] g) (inside : Without setting.closers g) :
    ∃ statements complaints, body (Rules.within depth) (statement depth) setting (g ++ u :: later) =
      ⟨some statements, u :: later, complaints⟩ := by
  have ended := entries_rest depth setting later closing closes g bodiless inside
  obtain ⟨found, rest, complaints, read⟩ :=
    (unfailing_entries (Rules.within depth) (statement depth) setting).exists_read (g ++ u :: later)
  rw [read] at ended
  obtain rfl : rest = u :: later := ended
  exact ⟨_, _, bind_of_some _ read⟩

theorem block_closes (closes : u.kind = .endWord) {g : List Token}
    (inside : Without [.doWord, .ifWord, .endWord] g) :
    ∃ statements complaints, block (Rules.within depth) (statement depth) setting (g ++ u :: later) =
      ⟨some (.block statements), later, complaints⟩ := by
  have last : u.kind ∈ (setting.closedBy [.endWord]).closers := by simp [Setting.closedBy, closes]
  obtain ⟨statements, complaints, read⟩ := body_closes depth (setting.closedBy [.endWord]) later
    (by simp [closes]) last (inside.mono (by decide)) (inside.mono (by simp [Setting.closedBy]))
  refine ⟨statements, complaints, ?_⟩
  rw [block, bind_of_some _ read, bind_of_some _ (expect_of_kind _ closes later), pure_apply]
  simp

theorem branch_closes {c g₁ g₂ : List Token} {e : Expr} {t w : Token}
    (clean : Reads (Rules.within depth).expression c e []) (after : t.kind = .thenWord)
    (turns : w.kind = .elseWord) (closes : u.kind = .endWord)
    (first : Without [.doWord, .ifWord, .elseWord, .endWord] g₁)
    (second : Without [.doWord, .ifWord, .endWord] g₂) :
    ∃ consequent alternate complaints, branch (Rules.within depth) (statement depth) setting
        (c ++ t :: (g₁ ++ w :: (g₂ ++ u :: later))) =
      ⟨some (.branch e consequent alternate), later, complaints⟩ := by
  have condition (us : List Token) :
      Reads (Rules.within depth).expression (c ++ t :: us) e (t :: us) :=
    (fenced_within (fence_then after us) depth).expression.reads_append.2 clean
  have middle : w.kind ∈ (setting.closedBy [.elseWord, .endWord]).closers := by
    simp [Setting.closedBy, turns]
  obtain ⟨consequent, complaints, read⟩ := body_closes depth (setting.closedBy [.elseWord, .endWord])
    (g₂ ++ u :: later) (by simp [turns]) middle (first.mono (by decide))
    (first.mono (by simp [Setting.closedBy]))
  have last : u.kind ∈ (setting.closedBy [.endWord]).closers := by simp [Setting.closedBy, closes]
  obtain ⟨alternate, complaints', read'⟩ := body_closes depth (setting.closedBy [.endWord]) later
    (by simp [closes]) last (second.mono (by decide)) (second.mono (by simp [Setting.closedBy]))
  refine ⟨consequent, alternate, complaints ++ complaints', ?_⟩
  rw [branch, bind_of_some _ (condition _), bind_of_some _ (expect_of_kind _ after _),
    bind_of_some _ read, accept_bind_mem _ (by simp [turns])]
  dsimp only
  rw [bind_of_some _ read', bind_of_some _ (expect_of_kind _ closes later), pure_apply]
  simp

end Bodies

theorem item_of_word {k : Token}
    (opens : k.kind ∈ [.printWord, .doWord, .ifWord, .whileWord, .forWord, .breakWord])
    (ts : List Token) :
    item (Rules.within nestingLimit) (statement nestingLimit) .top (k :: ts) =
      (match k.kind with
      | .printWord => printStatement (Rules.within (nestingLimit - 1)) k
      | .doWord => block (Rules.within (nestingLimit - 1)) (statement (nestingLimit - 1)) .top
      | .ifWord => branch (Rules.within (nestingLimit - 1)) (statement (nestingLimit - 1)) .top
      | .whileWord => whileLoop (Rules.within (nestingLimit - 1)) (statement (nestingLimit - 1)) .top
      | .forWord => forLoop (Rules.within (nestingLimit - 1)) (statement (nestingLimit - 1)) .top
      | _ => breakStatement .top k) ts := by
  have other : ∀ t ∈ (k :: ts).head?, t.kind ∉ [Kind.letWord] := by
    rintro t ⟨⟩ word
    simp [List.mem_singleton.1 word] at opens
  have level : statement nestingLimit .top =
      statementWith (Rules.within (nestingLimit - 1)) (statement (nestingLimit - 1)) .top := rfl
  rw [item, accept_bind_not_mem _ other]
  dsimp only
  rw [level]
  exact accept_bind_mem _ opens ts

theorem entry_of_item {inner : Rules} {statement : Setting → Parser Stmt} {setting : Setting}
    {ts rest : List Token} {s : Stmt} {cs : List Complaint}
    (read : item inner statement setting ts = ⟨some s, rest, cs⟩) :
    entry inner statement setting ts = ⟨some (some s), rest, cs⟩ := by
  rw [entry_eq, recover, read]

section Entries

variable {k u : Token} (later : List Token)

theorem entry_block_closes (opens : k.kind = .doWord) (closes : u.kind = .endWord) {g : List Token}
    (inside : Without [.doWord, .ifWord, .endWord] g) :
    ∃ statements complaints,
      entry (Rules.within nestingLimit) (statement nestingLimit) .top (k :: (g ++ u :: later)) =
        ⟨some (some (.block statements)), later, complaints⟩ := by
  obtain ⟨statements, complaints, read⟩ := block_closes (nestingLimit - 1) .top later closes inside
  refine ⟨statements, complaints, entry_of_item ?_⟩
  rw [item_of_word (by simp [opens]), opens]
  exact read

theorem entry_branch_closes (opens : k.kind = .ifWord) {c g₁ g₂ : List Token} {e : Expr} {t w : Token}
    (clean : Reads bareExpression c e []) (after : t.kind = .thenWord) (turns : w.kind = .elseWord)
    (closes : u.kind = .endWord) (first : Without [.doWord, .ifWord, .elseWord, .endWord] g₁)
    (second : Without [.doWord, .ifWord, .endWord] g₂) :
    ∃ consequent alternate complaints,
      entry (Rules.within nestingLimit) (statement nestingLimit) .top
          (k :: (c ++ t :: (g₁ ++ w :: (g₂ ++ u :: later)))) =
        ⟨some (some (.branch e consequent alternate)), later, complaints⟩ := by
  obtain ⟨consequent, alternate, complaints, read⟩ := branch_closes (nestingLimit - 1) .top later
    clean after turns closes first second
  refine ⟨consequent, alternate, complaints, entry_of_item ?_⟩
  rw [item_of_word (by simp [opens]), opens]
  exact read

end Entries

end Parser

/-- A broken body still closes. Whatever stands in a block, if no word in it opens or closes a body of
its own, the block is one entry and what comes after its end is read as on its own. The same holds of
both bodies of a branch whose condition can be read. -/
theorem broken_bodies_close (later : List Token) :
    (∀ d g e, d.kind = .doWord → e.kind = .endWord →
      Without [.doWord, .ifWord, .endWord, .finish] g →
      ∃ body reports, Reading.Follows (some (.block body)) reports (parse later)
        (parse ([d] ++ g ++ [e] ++ later))) ∧
    ∀ i c t g₁ w g₂ e condition, i.kind = .ifWord → t.kind = .thenWord → w.kind = .elseWord →
      e.kind = .endWord → Parser.bareExpression (c ++ [t]) = ⟨some condition, [t], []⟩ →
      Without [.doWord, .ifWord, .elseWord, .endWord, .finish] g₁ →
      Without [.doWord, .ifWord, .endWord, .finish] g₂ →
      ∃ consequent alternate reports,
        Reading.Follows (some (.branch condition consequent alternate)) reports (parse later)
          (parse ([i] ++ c ++ [t] ++ g₁ ++ [w] ++ g₂ ++ [e] ++ later)) := by
  constructor
  · intro d g e opens closes inside
    obtain ⟨body, complaints, entry⟩ := Parser.entry_block_closes (Reading.content later) opens closes
      (inside.mono (by decide))
    have plain : Without [.finish] g := inside.mono (by decide)
    have bare : Without [.finish] ([d] ++ g ++ [e]) := by simp [opens, closes, plain]
    exact ⟨body, _, Reading.follows_of_entry (by simp) bare (by simpa using entry)⟩
  · intro i c t g₁ w g₂ e condition opens after turns closes clean first second
    have whole : Parser.Reads Parser.bareExpression c condition [] :=
      (Parser.fenced_within (Parser.fence_then after []) _).expression.reads_append.1 clean
    obtain ⟨consequent, alternate, complaints, entry⟩ := Parser.entry_branch_closes
      (Reading.content later) opens whole after turns closes (first.mono (by decide))
      (second.mono (by decide))
    have plain : Without [.finish] c := whole.without (by decide)
    have plain₁ : Without [.finish] g₁ := first.mono (by decide)
    have plain₂ : Without [.finish] g₂ := second.mono (by decide)
    have bare : Without [.finish] ([i] ++ c ++ [t] ++ g₁ ++ [w] ++ g₂ ++ [e]) := by
      simp [opens, closes, after, turns, plain, plain₁, plain₂]
    exact ⟨consequent, alternate, _,
      Reading.follows_of_entry (by simp) bare (by simpa using entry)⟩

theorem spoiled_bodies_close :
    (∃ body reports, Reading.Follows (some (.block body)) reports (parse (scan "print 1;").tokens)
      (parse ([⟨.doWord, "do", none, .start⟩] ++
        Reading.content (scan "else for (; while ) let = (").tokens ++
        [⟨.endWord, "end", none, .start⟩] ++ (scan "print 1;").tokens))) ∧
    ∃ consequent alternate reports,
      Reading.Follows (some (.branch (.var ⟨.name, "x", none, .start⟩) consequent alternate)) reports
        (parse (scan "print 1;").tokens)
        (parse ([⟨.ifWord, "if", none, .start⟩] ++ [⟨.name, "x", none, .start⟩] ++
          [⟨.thenWord, "then", none, .start⟩] ++ Reading.content (scan "while 1 break ) for").tokens ++
          [⟨.elseWord, "else", none, .start⟩] ++ Reading.content (scan "else then ; let x").tokens ++
          [⟨.endWord, "end", none, .start⟩] ++ (scan "print 1;").tokens)) :=
  ⟨(broken_bodies_close _).1 _ _ _ rfl rfl (by decide +kernel),
    (broken_bodies_close _).2 _ _ _ _ _ _ _ _ rfl rfl rfl rfl rfl (by decide +kernel)
      (by decide +kernel)⟩

end Scriptlet
