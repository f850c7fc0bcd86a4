import Scriptlet.Proofs.Gaps

/-! What a statement without its semicolon costs. Before a word that opens another statement it is a
gap. If the mistake is found at one of its own tokens, reading goes on at that word, and the rest is
read as on its own. If it is only found at the word, then the word counts as the mistake: it is dropped
like any other token, and with it what follows up to the next place where reading may go on. Which of
the two it is does not depend on what follows. -/
namespace Scriptlet

/-- The first place where reading may go on: behind a semicolon, or at a resuming word or the end. -/
inductive Resumes : List Token → List Token → Prop
  | behind {lost later : List Token} {u : Token} :
      Without (.semicolon :: .finish :: Kind.resuming) lost → u.kind = .semicolon →
      Resumes (lost ++ u :: later) later
  | before {lost later : List Token} {u : Token} :
      Without (.semicolon :: .finish :: Kind.resuming) lost → u.kind ∈ .finish :: Kind.resuming →
      Resumes (lost ++ u :: later) (u :: later)

theorem exists_resumes {ts : List Token} {u : Token} (closed : u ∈ ts) (last : u.kind = .finish) :
    ∃ rest, Resumes ts rest := by
  induction ts with
  | nil => nomatch closed
  | cons t ts ih =>
    by_cases ends : t.kind = .semicolon
    · exact ⟨ts, @Resumes.behind [] ts t without_nil ends⟩
    · by_cases stays : t.kind ∈ .finish :: Kind.resuming
      · exact ⟨t :: ts, @Resumes.before [] ts t without_nil stays⟩
      · have plain : t.kind ∉ .semicolon :: .finish :: Kind.resuming := by
          simp only [List.mem_cons, not_or] at stays ⊢
          exact ⟨ends, stays⟩
        have other : u ≠ t := by
          rintro rfl
          exact stays (by simp [last])
        obtain ⟨rest, further⟩ := ih (List.mem_of_ne_of_mem other closed)
        cases further with
        | @behind lost _ _ free mark =>
          exact ⟨_, @Resumes.behind (t :: lost) _ _ (without_cons.2 ⟨plain, free⟩) mark⟩
        | @before lost _ _ free word =>
          exact ⟨_, @Resumes.before (t :: lost) _ _ (without_cons.2 ⟨plain, free⟩) word⟩

namespace Parser

/-- A reader that, where it fails, complains last about the token it stops at. -/
def Blames {α : Type} (p : Parser α) : Prop :=
  ∀ ts, (p ts).value = none → ∃ early m, (p ts).complaints = early ++ [⟨(p ts).rest.head?, m⟩]

namespace Blames

variable {α β : Type} {p : Parser α}

theorem of_given (given : ∀ ts, (p ts).value.isSome) : Blames p := by
  intro ts failed
  have value := given ts
  rw [failed] at value
  nomatch value

theorem bind {f : α → Parser β} (first : Blames p) (next : ∀ a, Yields p a → Blames (f a)) :
    Blames (p >>= f) := by
  intro ts
  have step := first ts
  match read : p ts with
  | ⟨none, mid, cs⟩ =>
    rw [read] at step
    rw [bind_of_none f read]
    exact fun _ => step rfl
  | ⟨some a, mid, cs⟩ =>
    rw [bind_of_some f read]
    intro failed
    obtain ⟨early, m, last⟩ := next a ⟨ts, by rw [read]⟩ mid failed
    exact ⟨cs ++ early, m, by simp only [last, List.append_assoc]⟩

theorem fail (m : Mistake) : Blames (fail m : Parser α) :=
  fun _ _ => ⟨[], m, rfl⟩

theorem accept_bind {kinds : List Kind} {f : Option Token → Parser β}
    (found : ∀ t, t.kind ∈ kinds → Blames (f (some t))) (absent : Blames (f none)) :
    Blames (accept kinds >>= f) := by
  intro ts
  obtain ⟨t, rest, -, member, read⟩ | ⟨-, read⟩ := accept_bind_cases kinds f ts
  · rw [read]
    exact found t member rest
  · rw [read]
    exact absent ts

theorem atom : Blames atom := by
  intro ts
  obtain ⟨t, rest, e, -, -, read⟩ | failed := atom_cases ts
  · simp [read]
  · rw [failed]
    exact fail _ ts

end Blames

theorem passesOn_blames : PassesOn (fun _ => True) fun _ _ p => Blames p where
  usual _ _ := trivial
  relax := id
  pure _ := .of_given fun _ => rfl
  bind := .bind
  fail _ := .fail _
  accept_bind _ := .accept_bind

theorem passes_blames : Passes (fun _ => True) fun _ _ p => Blames p where
  toPassesOn := passesOn_blames
  atom := .atom
  chainRest := passesOn_blames.chainRest (.of_given fun _ => rfl)
  dropValue := passesOn_blames.dropValue fun _ => .of_given fun _ => rfl

def Closed {α : Type} (p : Parser α) : Prop :=
  ∀ ts, (p ts).value.isSome → ∃ t ∈ ts, t.kind = .semicolon

theorem closed_ending (m : Mistake) (s : Stmt) : Closed (do
    let _ ← expect .semicolon m
    return s) := by
  intro ts yields
  match ts with
  | [] =>
    rw [bind_of_none _ (expect_of_other m (by simp))] at yields
    nomatch yields
  | t :: ts =>
    by_cases mark : t.kind = .semicolon
    · exact ⟨t, List.mem_cons_self, mark⟩
    · rw [bind_of_none _ (expect_of_other m (by simpa using mark))] at yields
      nomatch yields

theorem Closed.after {α β : Type} {p : Parser α} {f : α → Parser β} (first : Orderly p)
    (last : ∀ a, Closed (f a)) : Closed (p >>= f) := by
  intro ts yields
  have taken := first.suffix ts
  match read : p ts with
  | ⟨none, mid, cs⟩ =>
    rw [bind_of_none f read] at yields
    nomatch yields
  | ⟨some a, mid, cs⟩ =>
    rw [bind_of_some f read] at yields
    rw [read] at taken
    obtain ⟨t, member, mark⟩ := last a mid yields
    exact ⟨t, taken.subset member, mark⟩

theorem Closed.accept_bind {β : Type} {kinds : List Kind} {f : Option Token → Parser β}
    (found : ∀ t, Closed (f (some t))) (absent : Closed (f none)) :
    Closed (accept kinds >>= f) := by
  intro ts
  obtain ⟨t, rest, rfl, -, read⟩ | ⟨-, read⟩ := accept_bind_cases kinds f ts
  · rw [read]
    intro yields
    obtain ⟨u, member, mark⟩ := found t rest yields
    exact ⟨u, List.mem_cons_of_mem t member, mark⟩
  · rw [read]
    exact absent ts

def Opening (us : List Token) : Prop :=
  ∀ t ∈ us.head?, t.kind ∈ Kind.opening

theorem Opening.apart {us : List Token} (opening : Opening us) {kinds : List Kind}
    (others : ∀ kind ∈ Kind.opening, kind ∉ kinds) : ∀ t ∈ us.head?, t.kind ∉ kinds :=
  fun t first => others t.kind (opening t first)

/-- A rule for simple statements: what follows does not matter to it, and it needs a semicolon. -/
structure Simple (us : List Token) (p : Parser Stmt) : Prop where
  orderly : Orderly p
  fenced : Fenced us p
  blames : Blames p
  closed : Closed p

namespace Simple

variable {us : List Token} (opening : Opening us) (depth : Nat)

include opening

theorem passes : Passes (fun kind => ∀ t ∈ us.head?, t.kind ≠ kind)
    fun strict _ p => Moves strict p ∧ Fenced us p :=
  passes_fenced (opening.apart (by decide))

theorem semicolon : ∀ t ∈ us.head?, t.kind ≠ .semicolon := by
  intro t first same
  exact absurd (same ▸ opening t first) (by decide)

theorem declaration : Simple us (declaration (Rules.within depth)) := by
  have fenced := passes opening
  obtain ⟨moves, fenced⟩ := fenced.declaration (semicolon opening) (fenced.within depth)
  refine ⟨Advancing.toOrderly moves, fenced, ?_, ?_⟩
  · exact passes_blames.declaration trivial (passes_blames.within depth)
  · refine Closed.after (Orderly.expect _ _) fun name => .accept_bind (fun _ => ?_) ?_
    · exact Closed.after ((advancing_within depth).expression.toOrderly.map some) fun _ =>
        closed_ending _ _
    · exact closed_ending _ _

theorem expressionStatement : Simple us (expressionStatement (Rules.within depth)) := by
  have fenced := passes opening
  obtain ⟨moves, fenced⟩ := fenced.expressionStatement (semicolon opening) (fenced.within depth)
  refine ⟨Advancing.toOrderly moves, fenced, ?_, ?_⟩
  · exact passes_blames.expressionStatement trivial (passes_blames.within depth)
  · exact Closed.after (advancing_within depth).expression.toOrderly fun _ => closed_ending _ _

theorem printStatement {keyword : Token} (word : keyword.kind = .printWord) :
    Simple us (printStatement (Rules.within depth) keyword) := by
  have fenced := passes opening
  obtain ⟨moves, fenced⟩ := fenced.printStatement (semicolon opening) (fenced.within depth) word
  refine ⟨Advancing.toOrderly moves, fenced, ?_, ?_⟩
  · exact passes_blames.printStatement trivial (passes_blames.within depth) word
  · exact Closed.after (advancing_within depth).expression.toOrderly fun _ => closed_ending _ _

theorem breakStatement (keyword : Token) : Simple us (breakStatement .top keyword) := by
  have stray := Orderly.complain keyword .strayBreak
  have both : Orderly (Parser.breakStatement .top keyword) ∧ Fenced us (Parser.breakStatement .top keyword) :=
    (passes opening).breakStatement (semicolon opening) ⟨stray, .complain keyword .strayBreak⟩
  refine ⟨both.1, both.2, ?_, Closed.after stray fun _ => closed_ending _ _⟩
  exact passes_blames.breakStatement trivial (.of_given fun _ => rfl)

end Simple

theorem exists_simple {us : List Token} (opening : Opening us) {k : Option Token}
    (word : ∀ t ∈ k, t.kind ∈ [.letWord, .printWord, .breakWord]) {g : List Token}
    (inside : Without (.semicolon :: Kind.resuming) g) (any : k.toList ++ g ≠ []) :
    ∃ rule, Simple us rule ∧ ∀ later,
      item (Rules.within nestingLimit) (statement nestingLimit) .top (k.toList ++ g ++ later) =
        rule (g ++ later) := by
  cases k with
  | none =>
    obtain ⟨t, g, rfl⟩ := List.exists_cons_of_ne_nil any
    have plain : Without Kind.opening (t :: g) := inside.mono (by decide)
    refine ⟨_, Simple.expressionStatement opening (nestingLimit - 1), fun later => ?_⟩
    exact item_of_other (without_cons.1 plain).1
  | some t =>
    have kinds := word t rfl
    simp only [List.mem_cons, List.not_mem_nil, or_false] at kinds
    obtain same | same | same := kinds
    · refine ⟨_, Simple.declaration opening nestingLimit, fun later => ?_⟩
      exact accept_bind_mem _ (by simp [same]) _
    · refine ⟨_, Simple.printStatement opening (nestingLimit - 1) same, fun later => ?_⟩
      rw [Option.toList_some, List.append_assoc, List.singleton_append,
        item_of_word (by simp [same]), same]
    · refine ⟨_, Simple.breakStatement opening t, fun later => ?_⟩
      rw [Option.toList_some, List.append_assoc, List.singleton_append,
        item_of_word (by simp [same]), same]

/-- Without its semicolon a simple statement fails at the same token, alone and before other tokens. -/
theorem Simple.fails {us : List Token} {rule : Parser Stmt} (simple : Simple us rule) {g : List Token}
    (inside : Without (.semicolon :: Kind.resuming) g) :
    ∃ left early early' m m', left <:+ g ∧
      rule g = ⟨none, left, early ++ [⟨left.head?, m⟩]⟩ ∧
      rule (g ++ us) = ⟨none, left ++ us, early' ++ [⟨(left ++ us).head?, m'⟩]⟩ := by
  have step := simple.fenced g
  have suffix := simple.orderly.suffix g
  have alone := simple.blames g
  have joined := simple.blames (g ++ us)
  have closed := simple.closed g
  generalize rule g = x, rule (g ++ us) = y at *
  cases step with
  | yield =>
    obtain ⟨t, member, mark⟩ := closed rfl
    exact absurd (by simp [mark]) (inside t member)
  | failure =>
    obtain ⟨early, m, last⟩ := alone rfl
    obtain ⟨early', m', last'⟩ := joined rfl
    exact ⟨_, early, early', m, m', suffix, congrArg (Step.mk none _) last,
      congrArg (Step.mk none _) last'⟩

theorem skipAfter_until {last : Token} (before : last.kind ≠ .semicolon) {left rest : List Token}
    (inside : Without (.semicolon :: Kind.resuming) left)
    (stays : ∀ u ∈ rest.head?, u.kind ∈ Kind.resuming) : skipAfter last (left ++ rest) = rest := by
  induction left generalizing last with
  | nil =>
    cases rest with
    | nil => rfl
    | cons u rest => rw [List.nil_append, skipAfter, if_pos (.inr (stays u rfl))]
  | cons t left ih =>
    obtain ⟨first, others⟩ := without_cons.1 inside
    rw [List.mem_cons, not_or] at first
    rw [List.cons_append, skipAfter, if_neg (by simp [before, first.2])]
    exact ih first.1 others

/-- After a mistake at one of these tokens, reading goes on behind them. -/
theorem resume_until {left rest : List Token} (any : left ≠ [])
    (inside : Without (.semicolon :: Kind.resuming) left)
    (stays : ∀ u ∈ rest.head?, u.kind ∈ Kind.resuming) : resume [] (left ++ rest) = rest := by
  obtain ⟨t, left, rfl⟩ := List.exists_cons_of_ne_nil any
  obtain ⟨first, others⟩ := without_cons.1 inside
  rw [List.mem_cons, not_or] at first
  rw [List.cons_append, resume, if_neg List.not_mem_nil]
  exact skipAfter_until first.1 others stays

theorem resume_all {left : List Token} (inside : Without (.semicolon :: Kind.resuming) left) :
    resume [] left = [] := by
  by_cases any : left = []
  · rw [any]
    rfl
  · have gone := @resume_until left [] any inside (by simp)
    rwa [List.append_nil] at gone

theorem resume_at {first : Token} (other : first.kind ≠ .semicolon) {later rest : List Token}
    (resumes : Resumes later rest) :
    ∃ lost, later = lost ++ rest ∧ Without [.finish] lost ∧
      resume [] (first :: (lost ++ Reading.content rest)) = Reading.content rest := by
  cases resumes with
  | @behind lost _ u free mark =>
    refine ⟨lost ++ [u], by simp, ?_, ?_⟩
    · exact without_append.2 ⟨free.mono (by decide), by simp [mark]⟩
    · rw [resume, if_neg List.not_mem_nil, List.append_assoc, List.singleton_append]
      exact skipAfter_past mark other (free.mono (by decide))
  | @before lost later u free word =>
    refine ⟨lost, rfl, free.mono (by decide), ?_⟩
    rw [resume, if_neg List.not_mem_nil]
    refine skipAfter_until other (free.mono (by decide)) ?_
    rw [Reading.content, List.takeWhile_cons]
    split
    · rename_i inner
      rintro t ⟨⟩
      exact (List.mem_cons.1 word).resolve_left (by simpa using inner)
    · simp

end Parser

theorem Reading.follows_of_failure {ts later left : List Token} (any : ts ≠ [])
    (bare : Without [.finish] ts) {cs : List Complaint}
    (failed : Parser.item (Rules.within nestingLimit) (Parser.statement nestingLimit) .top
      (ts ++ content later) = ⟨none, left, cs⟩)
    (resumed : Parser.resume [] left = content later) :
    Follows none (cs.map (·.report (closing later))) (parse later) (parse (ts ++ later)) := by
  refine follows_of_entry any bare ?_
  rw [Parser.entry_eq, Parser.recover, failed, ← resumed]
  rfl

theorem Reading.follows_past {ts later rest : List Token} (any : ts ≠ [])
    (bare : Without [.finish] ts) {first : Token} (goes : first.kind ≠ .finish)
    (other : first.kind ≠ .semicolon) {cs : List Complaint}
    (failed : Parser.item (Rules.within nestingLimit) (Parser.statement nestingLimit) .top
      (ts ++ first :: content later) = ⟨none, first :: content later, cs⟩)
    (resumes : Resumes later rest) :
    Follows none (cs.map (·.report (closing rest))) (parse rest) (parse (ts ++ first :: later)) := by
  obtain ⟨lost, rfl, unfinished, resumed⟩ := Parser.resume_at other resumes
  have further : content (lost ++ rest) = lost ++ content rest :=
    List.takeWhile_append_of_pos (by simpa [Without] using unfinished)
  have whole : Without [.finish] (ts ++ first :: lost) :=
    without_append.2 ⟨bare, without_cons.2 ⟨by simpa using goes, unfinished⟩⟩
  have longer (more : List Token) : ts ++ first :: (lost ++ more) = ts ++ first :: lost ++ more := by
    simp
  rw [further, longer] at failed
  rw [longer]
  exact follows_of_failure (by simp [any]) whole failed resumed

theorem Reading.parse_of_failure {ts left : List Token} (any : ts ≠ []) (bare : Without [.finish] ts)
    {finish : Token} (ends : finish.kind = .finish) {cs : List Complaint}
    (failed : Parser.item (Rules.within nestingLimit) (Parser.statement nestingLimit) .top ts =
      ⟨none, left, cs⟩)
    (gone : Parser.resume [] left = []) :
    parse (ts ++ [finish]) = ⟨.program [none], cs.map (·.report finish)⟩ := by
  have content : content [finish] = [] := by simp [Reading.content, ends]
  have closing : closing [finish] = finish := by simp [Reading.closing, ends]
  have nothing : parse [finish] = ⟨.program [], []⟩ := by
    rw [parse, content]
    rfl
  obtain ⟨entries, none, parsed, reports⟩ := @follows_of_failure ts [finish] left any bare cs
    (by rwa [content, List.append_nil]) (by rwa [content])
  rw [nothing] at none reports
  obtain rfl := Parsed.program.inj none
  rw [closing, List.append_nil] at reports
  rw [← parsed, ← reports]

theorem Complaint.location_report (finish : Token) {c : Complaint} (ends : finish.kind = .finish)
    (inner : ∀ t ∈ c.token?, t.kind ≠ .finish) :
    (c.report finish).location = .finish ↔ c.token? = none := by
  obtain ⟨found, m⟩ := c
  cases found with
  | none => simp [report, Report.grammar, ends]
  | some t => simp [report, Report.grammar, inner t rfl]

/-- An unterminated simple statement is a gap with a last report, and that report decides what it costs.
If it is about one of the statement's own tokens, reading goes on at the word that opens the next
statement. If it is about the end, then before such a word it is about the word instead, and the word is
lost with what follows it up to the next place where reading may go on. -/
theorem unterminated_statement_costs {k : Option Token} {g later : List Token} {first finish : Token}
    (word : ∀ t ∈ k, t.kind ∈ [.letWord, .printWord, .breakWord])
    (inside : Without (.semicolon :: .finish :: Kind.resuming) g) (any : k.toList ++ g ≠ [])
    (opens : first.kind ∈ Kind.opening)
    (closed : (first :: later).getLast?.map Token.kind = some .finish)
    (ends : finish.kind = .finish) :
    ∃ early last, parse (k.toList ++ g ++ [finish]) = ⟨.program [none], early ++ [last]⟩ ∧
      (last.location ≠ .finish → ∃ reports, Reading.Follows none reports (parse (first :: later))
        (parse (k.toList ++ g ++ first :: later))) ∧
      (last.location = .finish → ∃ reports message rest, Resumes later rest ∧
        Reading.Follows none (reports ++ [.grammar first message]) (parse rest)
          (parse (k.toList ++ g ++ first :: later))) := by
  have plain := inside.mono (show .semicolon :: Kind.resuming ⊆ _ by decide)
  have bare : Without [.finish] (k.toList ++ g) := by
    refine without_append.2 ⟨?_, inside.mono (by decide)⟩
    intro t member finish
    have kinds := word t (Option.mem_toList.1 member)
    simp [List.mem_singleton.1 finish] at kinds
  have words : ∀ kind ∈ Kind.opening, kind ≠ .finish ∧ kind ≠ .semicolon ∧ kind ∈ Kind.resuming := by
    decide
  obtain ⟨goes, other, stays⟩ := words _ opens
  have content : Reading.content (first :: later) = first :: Reading.content later :=
    List.takeWhile_cons_of_pos (by simpa using goes)
  have opening : Parser.Opening (Reading.content (first :: later)) := by
    simpa [Parser.Opening, content] using opens
  obtain ⟨rule, simple, reads⟩ := Parser.exists_simple opening word plain any
  obtain ⟨left, early, early', m, m', suffix, alone, joined⟩ := simple.fails plain
  have free := plain.suffix suffix
  have failed := reads []
  rw [List.append_nil, List.append_nil, alone] at failed
  have lone := Reading.parse_of_failure any bare ends failed (Parser.resume_all free)
  rw [List.map_append, List.map_singleton] at lone
  have located := Complaint.location_report finish (c := ⟨left.head?, m⟩) ends fun t member =>
    fun same => inside t (suffix.subset (List.mem_of_mem_head? member)) (by simp [same])
  refine ⟨_, _, lone, fun own => ?_, fun atEnd => ?_⟩
  · have some : left ≠ [] := fun none => own (located.2 (List.head?_eq_none_iff.2 none))
    refine ⟨_, Reading.follows_of_failure any bare ((reads _).trans joined) ?_⟩
    refine Parser.resume_until some free ?_
    rw [content]
    rintro t ⟨⟩
    exact stays
  · obtain rfl : left = [] := List.head?_eq_none_iff.1 (located.1 atEnd)
    obtain ⟨u, last, mark⟩ := Option.map_eq_some_iff.1 closed
    have apart : u ≠ first := by
      rintro rfl
      exact goes mark
    obtain ⟨rest, resumes⟩ :=
      exists_resumes (List.mem_of_ne_of_mem apart (List.mem_of_getLast? last)) mark
    rw [content, List.nil_append] at joined
    have follows := Reading.follows_past any bare goes other ((reads _).trans joined) resumes
    rw [List.map_append, List.map_singleton] at follows
    exact ⟨_, m'.message, rest, resumes, follows⟩

theorem unterminated_samples_cost :
    (∃ reports, Reading.Follows none reports
      (parse (⟨.printWord, "print", none, .start⟩ :: (scan "4;").tokens))
      (parse ((some ⟨.letWord, "let", none, .start⟩ : Option Token).toList ++
        Reading.content (scan "= 1 2 3").tokens ++
        ⟨.printWord, "print", none, .start⟩ :: (scan "4;").tokens))) ∧
    ∃ reports message rest, Resumes (scan "4; print 5;").tokens rest ∧
      Reading.Follows none (reports ++ [.grammar ⟨.printWord, "print", none, .start⟩ message])
        (parse rest)
        (parse ((some ⟨.letWord, "let", none, .start⟩ : Option Token).toList ++
          Reading.content (scan "x = 1").tokens ++
          ⟨.printWord, "print", none, .start⟩ :: (scan "4; print 5;").tokens)) := by
  constructor
  · obtain ⟨early, last, lone, own, -⟩ := @unterminated_statement_costs
      (some ⟨.letWord, "let", none, .start⟩) (Reading.content (scan "= 1 2 3").tokens)
      (scan "4;").tokens ⟨.printWord, "print", none, .start⟩ (.finish .start) (by decide)
      (by decide +kernel) (by simp) (by decide)
      (by decide +kernel) rfl
    have found : (parse ((some ⟨.letWord, "let", none, .start⟩ : Option Token).toList ++
        Reading.content (scan "= 1 2 3").tokens ++ [.finish .start])).reports.getLast?.map
          Report.location = some (.lexeme "=") := by decide +kernel
    rw [lone] at found
    exact own (by simp_all)
  · obtain ⟨early, last, lone, -, lost⟩ := @unterminated_statement_costs
      (some ⟨.letWord, "let", none, .start⟩) (Reading.content (scan "x = 1").tokens)
      (scan "4; print 5;").tokens ⟨.printWord, "print", none, .start⟩ (.finish .start) (by decide)
      (by decide +kernel) (by simp) (by decide)
      (by decide +kernel) rfl
    have found : (parse ((some ⟨.letWord, "let", none, .start⟩ : Option Token).toList ++
        Reading.content (scan "x = 1").tokens ++ [.finish .start])).reports.getLast?.map
          Report.location = some .finish := by decide +kernel
    rw [lone] at found
    exact lost (by simp_all)

/-- A word that opens a statement does not always survive an unterminated statement before it. -/
theorem opening_word_not_always_kept :
    ¬ ∀ (k : Option Token) (g : List Token) (first : Token) (later : List Token),
      (∀ t ∈ k, t.kind ∈ [.letWord, .printWord, .breakWord]) →
      Without (.semicolon :: .finish :: Kind.resuming) g → k.toList ++ g ≠ [] →
      first.kind ∈ Kind.opening → (first :: later).getLast?.map Token.kind = some .finish →
      ∃ reports, Reading.Follows none reports (parse (first :: later))
        (parse (k.toList ++ g ++ first :: later)) := by
  intro kept
  obtain ⟨reports, entries, alone, joined, -⟩ := kept (some ⟨.letWord, "let", none, .start⟩)
    (Reading.content (scan "x = 1").tokens) ⟨.printWord, "print", none, .start⟩ (scan "4;").tokens
    (by decide) (by decide +kernel) (by simp) (by decide) (by decide +kernel)
  have one : (match (parse (⟨.printWord, "print", none, .start⟩ :: (scan "4;").tokens)).parsed with
      | .program entries => entries.length
      | .expression _ => 0) = 1 := by decide +kernel
  have gap : (match (parse ((some ⟨.letWord, "let", none, .start⟩ : Option Token).toList ++
        Reading.content (scan "x = 1").tokens ++
        ⟨.printWord, "print", none, .start⟩ :: (scan "4;").tokens)).parsed with
      | .program entries => entries.length
      | .expression _ => 0) = 1 := by decide +kernel
  rw [alone] at one
  rw [joined] at gap
  simp only [List.length_cons] at one gap
  omega

end Scriptlet
