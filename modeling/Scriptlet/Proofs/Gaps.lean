import Scriptlet.Proofs.CursorProgram
import Scriptlet.Proofs.Recovery

/-! What a mistake in a simple statement costs. Wherever it strikes before the semicolon, reading goes on
right after it, so the statement is one entry and the text behind it is read as on its own. The entry is a
gap if there is a complaint about it, other than those that do not stop the reading. -/
namespace Scriptlet

namespace Parser

/-- A reader that fails just if it complains about a mistake that is not mild. -/
def FailsIffGrave {α : Type} (p : Parser α) : Prop :=
  ∀ ts, (p ts).value = none ↔ ∃ c ∈ (p ts).complaints, c.mistake ∉ Mistake.mild

namespace FailsIffGrave

variable {α β : Type} {p : Parser α}

theorem of_silent (given : ∀ ts, (p ts).value.isSome) (silent : ∀ ts, (p ts).complaints = []) :
    FailsIffGrave p := by
  intro ts
  have value := given ts
  rw [Option.isSome_iff_ne_none] at value
  simp [value, silent ts]

/-- What was read before has only mild complaints, so the last reader decides. -/
theorem bind {f : α → Parser β} (first : FailsIffGrave p)
    (next : ∀ a, Yields p a → FailsIffGrave (f a)) : FailsIffGrave (p >>= f) := by
  intro ts
  have step := first ts
  match read : p ts with
  | ⟨none, mid, cs⟩ =>
    rw [read] at step
    rw [bind_of_none f read]
    exact ⟨fun _ => step.1 rfl, fun _ => rfl⟩
  | ⟨some a, mid, cs⟩ =>
    rw [read] at step
    have mild : ¬ ∃ c ∈ cs, c.mistake ∉ Mistake.mild := mt step.2 (Option.some_ne_none a)
    rw [bind_of_some f read, next a ⟨ts, by rw [read]⟩ mid]
    simp only [List.mem_append, or_and_right, exists_or, mild, false_or]

theorem fail {m : Mistake} (grave : m ∉ Mistake.mild) : FailsIffGrave (fail m : Parser α) := by
  simp [FailsIffGrave, Parser.fail, grave]

theorem complain (t : Token) {m : Mistake} (mild : m ∈ Mistake.mild) :
    FailsIffGrave (complain t m) := by
  simp [FailsIffGrave, Parser.complain, mild]

theorem accept_bind {kinds : List Kind} {f : Option Token → Parser β}
    (found : ∀ t, t.kind ∈ kinds → FailsIffGrave (f (some t))) (absent : FailsIffGrave (f none)) :
    FailsIffGrave (accept kinds >>= f) := by
  intro ts
  obtain ⟨t, rest, -, member, read⟩ | ⟨-, read⟩ := accept_bind_cases kinds f ts
  · rw [read]
    exact found t member rest
  · rw [read]
    exact absent ts

theorem atom : FailsIffGrave atom := by
  intro ts
  obtain ⟨t, rest, e, -, -, read⟩ | failed := atom_cases ts
  · simp [read]
  · rw [failed]
    exact fail (by decide) ts

end FailsIffGrave

theorem passesOn_failsIffGrave : PassesOn (fun _ => True) fun _ _ p => FailsIffGrave p where
  usual _ _ := trivial
  relax := id
  pure _ := .of_silent (fun _ => rfl) fun _ => rfl
  bind := .bind
  fail := .fail
  accept_bind _ := .accept_bind

theorem passes_failsIffGrave : Passes (fun _ => True) fun _ _ p => FailsIffGrave p where
  toPassesOn := passesOn_failsIffGrave
  atom := .atom
  chainRest := passesOn_failsIffGrave.chainRest (.of_silent (fun _ => rfl) fun _ => rfl)
  dropValue := passesOn_failsIffGrave.dropValue fun t => .complain t (by decide)

end Parser

/-- How the reading of a simple statement can end: behind its semicolon, or lost before that. -/
inductive Step.Ended (u : Token) (later g : List Token) : Step Stmt → Prop
  | read {s : Stmt} {cs : List Complaint} : Ended u later g ⟨some s, later, cs⟩
  | lost {left : List Token} {cs : List Complaint} : left <:+ g →
      Ended u later g ⟨none, left ++ u :: later, cs⟩

namespace Parser

variable {α : Type} {u : Token} {later : List Token}

def EndsAt (u : Token) (later : List Token) (p : Parser Stmt) : Prop :=
  ∀ g, Without (.semicolon :: Kind.resuming) g → Step.Ended u later g (p (g ++ u :: later))

theorem StopsBefore.ends {p : Parser α} {f : α → Parser Stmt} (first : StopsBefore (u :: later) p)
    (next : ∀ a, EndsAt u later (f a)) : EndsAt u later (p >>= f) := by
  intro g inside
  obtain ⟨mid, taken, stopped⟩ := first g (inside.mono (by decide))
  match read : p (g ++ u :: later) with
  | ⟨none, rest, cs⟩ =>
    rw [read] at stopped
    obtain rfl : rest = mid ++ u :: later := stopped
    rw [bind_of_none f read]
    exact .lost taken
  | ⟨some a, rest, cs⟩ =>
    rw [read] at stopped
    obtain rfl : rest = mid ++ u :: later := stopped
    rw [bind_of_some f read]
    have last := next a mid (inside.suffix taken)
    generalize f a (mid ++ u :: later) = step at last
    cases last with
    | read => exact .read
    | lost further => exact .lost (further.trans taken)

section Semicolon

variable (ends : u.kind = .semicolon)

include ends

theorem semicolon_apart {kinds : List Kind} (other : .semicolon ∉ kinds) :
    ∀ t ∈ (u :: later).head?, t.kind ∉ kinds := by
  rintro t ⟨⟩
  rwa [ends]

theorem stopsBefore_expression (depth : Nat) :
    StopsBefore (u :: later) (Rules.within depth).expression :=
  ((passes_stopsBefore (semicolon_apart ends (by decide))).within depth).expression

theorem ends_expect (m : Mistake) (s : Stmt) : EndsAt u later (do
    let _ ← expect .semicolon m
    return s) := by
  intro g inside
  match g with
  | [] =>
    rw [List.nil_append, bind_of_some _ (expect_of_kind m ends later)]
    exact .read
  | t :: g =>
    have other : t.kind ≠ .semicolon := fun same => inside t List.mem_cons_self (by simp [same])
    rw [bind_of_none _ (expect_of_other m (by simpa using other))]
    exact .lost List.suffix_rfl

theorem ends_declaration (depth : Nat) : EndsAt u later (declaration (Rules.within depth)) := by
  refine (StopsBefore.expect (semicolon_apart ends (by decide)) _).ends fun name => ?_
  refine (StopsBefore.accept (semicolon_apart ends (by decide))).ends fun found => ?_
  cases found with
  | none => exact ends_expect ends _ _
  | some _ =>
    exact ((stopsBefore_expression ends depth).bind fun e _ => .of_still fun _ => rfl).ends
      fun initial => ends_expect ends _ _

theorem ends_expressionStatement (depth : Nat) :
    EndsAt u later (expressionStatement (Rules.within depth)) :=
  (stopsBefore_expression ends depth).ends fun _ => ends_expect ends _ _

theorem ends_printStatement (depth : Nat) (keyword : Token) :
    EndsAt u later (printStatement (Rules.within depth) keyword) :=
  (stopsBefore_expression ends depth).ends fun _ => ends_expect ends _ _

theorem ends_breakStatement (keyword : Token) : EndsAt u later (breakStatement .top keyword) :=
  (StopsBefore.of_still (p := complain keyword .strayBreak) fun _ => rfl).ends fun _ =>
    ends_expect ends _ _

theorem skipAfter_semicolon : skipAfter u later = later := by
  cases later with
  | nil => rfl
  | cons t ts => rw [skipAfter, if_pos (.inl ends)]

theorem skipAfter_past {last : Token} (before : last.kind ≠ .semicolon) {left : List Token}
    (inside : Without (.semicolon :: Kind.resuming) left) :
    skipAfter last (left ++ u :: later) = later := by
  induction left generalizing last with
  | nil =>
    rw [List.nil_append, skipAfter, if_neg (by simp [before, ends, Kind.resuming]),
      skipAfter_semicolon ends]
  | cons t left ih =>
    obtain ⟨first, others⟩ := without_cons.1 inside
    rw [List.mem_cons, not_or] at first
    rw [List.cons_append, skipAfter, if_neg (by simp [before, first.2])]
    exact ih first.1 others

theorem resume_past {left : List Token} (inside : Without (.semicolon :: Kind.resuming) left) :
    resume [] (left ++ u :: later) = later := by
  cases left with
  | nil => rw [List.nil_append, resume, if_neg List.not_mem_nil, skipAfter_semicolon ends]
  | cons t left =>
    obtain ⟨first, others⟩ := without_cons.1 inside
    rw [List.mem_cons, not_or] at first
    rw [List.cons_append, resume, if_neg List.not_mem_nil]
    exact skipAfter_past ends first.1 others

/-- An entry that is a simple statement ends behind its semicolon, read or not. -/
theorem recover_ended {p : Parser Stmt} {ts g : List Token}
    (inside : Without (.semicolon :: Kind.resuming) g) (ended : (p ts).Ended u later g) :
    recover (resume []) p ts = ⟨some (p ts).value, later, (p ts).complaints⟩ := by
  rw [recover]
  generalize p ts = step at ended ⊢
  cases ended with
  | read => rfl
  | lost suffix => simp only [resume_past ends (inside.suffix suffix)]

theorem exists_rule (later : List Token) {k : Option Token}
    (word : ∀ t ∈ k, t.kind ∈ [.letWord, .printWord, .breakWord]) {g : List Token}
    (inside : Without (.semicolon :: Kind.resuming) g) :
    ∃ rule : Parser Stmt, rule.EndsAt u later ∧ rule.FailsIffGrave ∧
      item (Rules.within nestingLimit) (statement nestingLimit) .top (k.toList ++ g ++ u :: later) =
        rule (g ++ u :: later) := by
  have passes := passes_failsIffGrave
  cases k with
  | none =>
    obtain ⟨t, ts, shape⟩ : ∃ t ts, g ++ u :: later = t :: ts :=
      List.exists_cons_of_ne_nil (by simp)
    -- what comes first is in `g` or the semicolon itself, so it opens no other statement
    have absent : t.kind ∉ Kind.opening := by
      have first : t ∈ (g ++ [u]).head? := by
        cases g <;> simp_all
      have kinds : Without Kind.opening (g ++ [u]) :=
        without_append.2 ⟨inside.mono (by decide), by simp [ends, Kind.opening]⟩
      exact kinds t (List.mem_of_mem_head? first)
    refine ⟨_, ends_expressionStatement ends (nestingLimit - 1),
      passes.expressionStatement trivial (passes.within _), ?_⟩
    rw [Option.toList_none, List.nil_append, shape, item_of_other absent]
  | some t =>
    have kinds := word t rfl
    simp only [List.mem_cons, List.not_mem_nil, or_false] at kinds
    obtain same | same | same := kinds
    · refine ⟨_, ends_declaration ends nestingLimit,
        passes.declaration trivial (passes.within _), ?_⟩
      exact accept_bind_mem _ (by simp [same]) _
    · refine ⟨_, ends_printStatement ends (nestingLimit - 1) t,
        passes.printStatement trivial (passes.within _) same, ?_⟩
      rw [Option.toList_some, List.append_assoc, List.singleton_append,
        item_of_word (by simp [same]), same]
    · refine ⟨_, ends_breakStatement ends t,
        passes.breakStatement trivial (.complain t (by decide)), ?_⟩
      rw [Option.toList_some, List.append_assoc, List.singleton_append,
        item_of_word (by simp [same]), same]

end Semicolon

end Parser

theorem Mistake.message_mem_iff (m : Mistake) :
    m.message ∈ ["Invalid assignment target.", "Must be inside a loop to use 'break'."] ↔
      m ∈ Mistake.mild := by
  cases m <;> decide

/-- A malformed simple statement costs only itself. Up to the semicolon it is one entry, and what comes
after it is read as on its own. The entry is a gap just if there is a report on it other than the two
after which reading goes on. -/
theorem malformed_statement_costs_itself {k : Option Token} {g : List Token} {u : Token}
    (word : ∀ t ∈ k, t.kind ∈ [.letWord, .printWord, .breakWord])
    (inside : Without (.semicolon :: .finish :: Kind.resuming) g) (ends : u.kind = .semicolon)
    (later : List Token) :
    ∃ first reports,
      Reading.Follows first reports (parse later) (parse (k.toList ++ g ++ [u] ++ later)) ∧
      (first = none ↔ ∃ r ∈ reports,
        r.message ∉ ["Invalid assignment target.", "Must be inside a loop to use 'break'."]) := by
  have plain := inside.mono (show .semicolon :: Kind.resuming ⊆ _ by decide)
  have bare : Without [.finish] (k.toList ++ g ++ [u]) := by
    refine without_append.2 ⟨without_append.2 ⟨?_, inside.mono (by decide)⟩, by simp [ends]⟩
    intro t member finish
    have kinds := word t (Option.mem_toList.1 member)
    simp [List.mem_singleton.1 finish] at kinds
  obtain ⟨rule, ended, gap, same⟩ := Parser.exists_rule ends (Reading.content later) word plain
  have ended := ended g plain
  have gap := gap (g ++ u :: Reading.content later)
  rw [← same] at ended gap
  have entry := Parser.recover_ended ends plain ended
  rw [← List.singleton_append, ← List.append_assoc] at entry
  refine ⟨_, _, Reading.follows_of_entry (by simp) bare entry, ?_⟩
  rw [List.append_assoc, List.singleton_append, gap]
  constructor
  · rintro ⟨c, member, grave⟩
    exact ⟨_, List.mem_map_of_mem member, mt c.mistake.message_mem_iff.1 grave⟩
  · rintro ⟨r, member, other⟩
    obtain ⟨c, found, rfl⟩ := List.mem_map.1 member
    exact ⟨c, found, mt c.mistake.message_mem_iff.2 other⟩

theorem malformed_samples_cost_themselves :
    (∃ first reports, Reading.Follows first reports (parse (scan "print 1;").tokens)
        (parse ((some ⟨.letWord, "let", none, .start⟩ : Option Token).toList ++
          Reading.content (scan "x = + ( 1").tokens ++ [⟨.semicolon, ";", none, .start⟩] ++
          (scan "print 1;").tokens)) ∧
      (first = none ↔ ∃ r ∈ reports,
        r.message ∉ ["Invalid assignment target.", "Must be inside a loop to use 'break'."])) ∧
    ∃ first reports, Reading.Follows first reports (parse (scan "print 1;").tokens)
        (parse ((none : Option Token).toList ++ Reading.content (scan "1 = 2").tokens ++
          [⟨.semicolon, ";", none, .start⟩] ++ (scan "print 1;").tokens)) ∧
      (first = none ↔ ∃ r ∈ reports,
        r.message ∉ ["Invalid assignment target.", "Must be inside a loop to use 'break'."]) :=
  ⟨malformed_statement_costs_itself (by decide) (by decide +kernel) rfl _,
    malformed_statement_costs_itself (by decide) (by decide +kernel) rfl _⟩

end Scriptlet
