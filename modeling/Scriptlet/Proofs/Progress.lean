import Scriptlet.Proofs.Readers

/-! Reading moves forward. Every rule takes its tokens from the front and never fails in silence,
and a rule that yields something has taken at least one token. So the loops over operators and over
entries never use up their count of rounds, and both obey an equation that does not mention it. -/
namespace Scriptlet

namespace Parser

variable {α β : Type}

/-- The rest is a suffix of what was given, and a failure is complained about. -/
structure Orderly (p : Parser α) : Prop where
  suffix : ∀ ts, (p ts).rest <:+ ts
  loud : ∀ ts, (p ts).value = none → (p ts).complaints ≠ []

/-- In addition, a yield costs at least one token. -/
structure Advancing (p : Parser α) : Prop extends Orderly p where
  consumes : ∀ ts, (p ts).value.isSome → (p ts).rest.length < ts.length

namespace Orderly

theorem pure (a : α) : Orderly (pure a : Parser α) where
  suffix _ := List.suffix_rfl
  loud _ none := by simp [pure_apply] at none

theorem bind {p : Parser α} {f : α → Parser β} (first : Orderly p)
    (second : ∀ a, Yields p a → Orderly (f a)) : Orderly (p >>= f) where
  suffix ts := by
    have taken := first.suffix ts
    match read : p ts with
    | ⟨none, mid, complaints⟩ =>
      rw [read] at taken
      rwa [bind_of_none f read]
    | ⟨some a, mid, complaints⟩ =>
      rw [read] at taken
      rw [bind_of_some f read]
      exact ((second a ⟨ts, by rw [read]⟩).suffix mid).trans taken
  loud ts := by
    have complained := first.loud ts
    match read : p ts with
    | ⟨none, mid, complaints⟩ =>
      rw [read] at complained
      rw [bind_of_none f read]
      intro _
      exact complained rfl
    | ⟨some a, mid, complaints⟩ =>
      rw [bind_of_some f read]
      intro none
      simp [(second a ⟨ts, by rw [read]⟩).loud mid none]

theorem map {p : Parser α} (g : α → β) (inner : Orderly p) : Orderly (g <$> p) :=
  inner.bind fun a _ => Orderly.pure (g a)

theorem fail (m : Mistake) : Orderly (fail m : Parser α) where
  suffix _ := List.suffix_rfl
  loud _ _ := by simp [Parser.fail]

theorem complain (t : Token) (m : Mistake) : Orderly (complain t m) where
  suffix _ := List.suffix_rfl
  loud _ none := by simp [Parser.complain] at none

theorem next : Orderly next? where
  suffix _ := List.suffix_rfl
  loud _ none := by simp [next?] at none

theorem remaining : Orderly remaining where
  suffix _ := List.suffix_rfl
  loud _ none := by simp [Parser.remaining] at none

theorem accept_bind {kinds : List Kind} {f : Option Token → Parser β}
    (taken : ∀ t, t.kind ∈ kinds → Orderly (f (some t))) (left : Orderly (f none)) :
    Orderly (accept kinds >>= f) where
  suffix ts := by
    obtain ⟨t, rest, rfl, found, read⟩ | ⟨-, read⟩ := accept_bind_cases kinds f ts
    · rw [read]
      exact ((taken t found).suffix rest).trans (List.suffix_cons t rest)
    · rw [read]
      exact left.suffix ts
  loud ts := by
    obtain ⟨t, rest, -, found, read⟩ | ⟨-, read⟩ := accept_bind_cases kinds f ts
    · rw [read]
      exact (taken t found).loud rest
    · rw [read]
      exact left.loud ts

theorem expect (kind : Kind) (m : Mistake) : Orderly (expect kind m) :=
  accept_bind (fun t _ => pure t) (fail m)

theorem recover {p : Parser α} {resume : List Token → List Token} (inner : Orderly p)
    (resumed : ∀ ts, resume ts <:+ ts) : Orderly (recover resume p) where
  suffix ts := by
    have taken := inner.suffix ts
    simp only [Parser.recover]
    split <;> rename_i read <;> rw [read] at taken
    · exact taken
    · exact (resumed _).trans taken
  loud ts none := by
    simp only [Parser.recover] at none
    split at none <;> simp at none

end Orderly

theorem Orderly.reads_recover {p : Parser α} (orderly : Orderly p)
    {resume : List Token → List Token} {ts rest : List Token} {found : Option α} :
    Reads (Parser.recover resume p) ts found rest ↔ ∃ a, found = some a ∧ Reads p ts a rest := by
  have loud := orderly.loud ts
  simp only [Reads, Parser.recover]
  generalize p ts = step at loud ⊢
  obtain ⟨value, mid, complaints⟩ := step
  cases value with
  | some a =>
    simp only [Step.mk.injEq, Option.some.injEq]
    constructor
    · rintro ⟨rfl, rest⟩
      exact ⟨a, rfl, rfl, rest⟩
    · rintro ⟨b, rfl, rfl, rest⟩
      exact ⟨rfl, rest⟩
  | none => simp [loud rfl]

theorem Orderly.length_le {p : Parser α} (orderly : Orderly p) (ts : List Token) :
    (p ts).rest.length ≤ ts.length :=
  (orderly.suffix ts).length_le

namespace Advancing

theorem bind {p : Parser α} {f : α → Parser β} (first : Advancing p)
    (second : ∀ a, Yields p a → Orderly (f a)) : Advancing (p >>= f) where
  toOrderly := first.toOrderly.bind second
  consumes ts yielded := by
    have taken := first.consumes ts
    match read : p ts with
    | ⟨none, mid, complaints⟩ =>
      rw [bind_of_none f read] at yielded
      simp at yielded
    | ⟨some a, mid, complaints⟩ =>
      rw [read] at taken
      rw [bind_of_some f read]
      exact Nat.lt_of_le_of_lt ((second a ⟨ts, by rw [read]⟩).length_le mid) (taken rfl)

theorem fail (m : Mistake) : Advancing (fail m : Parser α) where
  toOrderly := .fail m
  consumes ts yielded := by simp [Parser.fail] at yielded

theorem accept_bind {kinds : List Kind} {f : Option Token → Parser β}
    (taken : ∀ t, t.kind ∈ kinds → Orderly (f (some t))) (left : Advancing (f none)) :
    Advancing (accept kinds >>= f) where
  toOrderly := .accept_bind taken left.toOrderly
  consumes ts := by
    obtain ⟨t, rest, rfl, found, read⟩ | ⟨-, read⟩ := accept_bind_cases kinds f ts
    · rw [read]
      exact fun _ => Nat.lt_succ_of_le ((taken t found).length_le rest)
    · rw [read]
      exact left.consumes ts

end Advancing

section Chain

variable {kinds : List Kind} {join : Expr → Token → Expr → Expr} {operand : Parser Expr}

theorem chainFrom_of_operator (count : Nat) (left : Expr) {operator : Token}
    (found : operator.kind ∈ kinds) (ts : List Token) :
    chainFrom kinds join operand (count + 1) left (operator :: ts) =
      (operand >>= fun right =>
        chainFrom kinds join operand count (join left operator right)) ts := by
  rw [chainFrom, accept_bind_mem _ found]

theorem chainFrom_of_other (count : Nat) (left : Expr) {ts : List Token}
    (absent : ∀ t ∈ ts.head?, t.kind ∉ kinds) :
    chainFrom kinds join operand count left ts = ⟨some left, ts, []⟩ := by
  cases count with
  | zero => rfl
  | succ count =>
    rw [chainFrom, accept_bind_not_mem _ absent]
    rfl

/-- The count of rounds does not matter once there are as many rounds as tokens. -/
theorem chainFrom_count (orderly : Orderly operand) {count other : Nat} (left : Expr)
    {ts : List Token} (enough : ts.length ≤ count) (plenty : ts.length ≤ other) :
    chainFrom kinds join operand count left ts = chainFrom kinds join operand other left ts := by
  induction count generalizing other left ts with
  | zero =>
    have empty : ts = [] := List.length_eq_zero_iff.1 (Nat.le_zero.1 enough)
    subst empty
    rw [chainFrom_of_other 0 left (by simp), chainFrom_of_other other left (by simp)]
  | succ count ih =>
    match ts, other with
    | [], other =>
      rw [chainFrom_of_other (count + 1) left (by simp), chainFrom_of_other other left (by simp)]
    | t :: ts, other + 1 =>
      by_cases found : t.kind ∈ kinds
      · rw [chainFrom_of_operator count left found, chainFrom_of_operator other left found]
        have shorter := orderly.length_le ts
        match read : operand ts with
        | ⟨none, mid, complaints⟩ => rw [bind_of_none _ read, bind_of_none _ read]
        | ⟨some right, mid, complaints⟩ =>
          rw [read] at shorter
          simp only [List.length_cons, Nat.add_le_add_iff_right] at enough plenty
          have same := ih (join left t right) (Nat.le_trans shorter enough)
            (Nat.le_trans shorter plenty)
          rw [bind_of_some _ read, bind_of_some _ read, same]
      · have absent : ∀ u ∈ (t :: ts).head?, u.kind ∉ kinds := by simpa using found
        rw [chainFrom_of_other _ left absent, chainFrom_of_other _ left absent]

theorem chainRest_of_operator (orderly : Orderly operand) (left : Expr) {operator : Token}
    (found : operator.kind ∈ kinds) (ts : List Token) :
    chainRest kinds join operand left (operator :: ts) =
      (operand >>= fun right => chainRest kinds join operand (join left operator right)) ts := by
  rw [chainRest, remaining_bind, List.length_cons, chainFrom_of_operator _ left found]
  have shorter := orderly.length_le ts
  match read : operand ts with
  | ⟨none, mid, complaints⟩ => rw [bind_of_none _ read, bind_of_none _ read]
  | ⟨some right, mid, complaints⟩ =>
    rw [read] at shorter
    rw [bind_of_some _ read, bind_of_some _ read, chainRest, remaining_bind,
      chainFrom_count orderly _ shorter (Nat.le_refl mid.length)]

theorem chainRest_of_other (left : Expr) {ts : List Token}
    (absent : ∀ t ∈ ts.head?, t.kind ∉ kinds) :
    chainRest kinds join operand left ts = ⟨some left, ts, []⟩ := by
  rw [chainRest, remaining_bind, chainFrom_of_other _ left absent]

end Chain

theorem advancing_atom : Advancing atom where
  suffix ts := by
    obtain ⟨t, rest, e, rfl, -, read⟩ | failed := atom_cases ts
    · rw [read]
      exact List.suffix_cons t rest
    · rw [failed]
      exact List.suffix_rfl
  loud ts := by
    obtain ⟨t, rest, e, rfl, -, read⟩ | failed := atom_cases ts
    · rw [read]
      exact nofun
    · rw [failed]
      exact (Orderly.fail .expression).loud ts
  consumes ts := by
    obtain ⟨t, rest, e, rfl, -, read⟩ | failed := atom_cases ts
    · rw [read]
      exact fun _ => Nat.lt_succ_self rest.length
    · rw [failed]
      exact (Advancing.fail .expression).consumes ts

def Moves (strict : Bool) {α : Type} (p : Parser α) : Prop :=
  if strict then Advancing p else Orderly p

theorem passesOn_moves : PassesOn (fun _ => True) Moves where
  usual _ _ := trivial
  relax := Advancing.toOrderly
  pure := Orderly.pure
  bind {_ _ strict _ _} first next := by
    cases strict with
    | true => exact Advancing.bind first next
    | false => exact Orderly.bind first next
  fail {_ strict m} _ := by
    cases strict with
    | true => exact Advancing.fail m
    | false => exact Orderly.fail m
  accept_bind {_ strict _ _} _ found absent := by
    cases strict with
    | true => exact Advancing.accept_bind found absent
    | false => exact Orderly.accept_bind found absent

theorem passes_moves : Passes (fun _ => True) Moves where
  toPassesOn := passesOn_moves
  atom := advancing_atom
  chainRest := passesOn_moves.chainRest Orderly.remaining
  dropValue := passesOn_moves.dropValue fun t => Orderly.complain t .target

end Parser

abbrev Rules.Advancing (r : Rules) : Prop :=
  r.Each Parser.Advancing

namespace Parser

theorem advancing_within (depth : Nat) : (Rules.within depth).Advancing :=
  passes_moves.within depth

theorem advancing_levels {inner : Rules} (further : inner.Advancing) :
    Levels (fun _ => Advancing) 0 inner :=
  passes_moves.levels further

theorem skipAfter_suffix (last : Token) (ts : List Token) : skipAfter last ts <:+ ts := by
  induction ts generalizing last with
  | nil => exact List.suffix_rfl
  | cons t ts ih =>
    rw [skipAfter]
    split
    · exact List.suffix_rfl
    · exact (ih t).trans (List.suffix_cons t ts)

theorem resume_suffix (closers : List Kind) (ts : List Token) : resume closers ts <:+ ts := by
  cases ts with
  | nil => exact List.suffix_rfl
  | cons t ts =>
    rw [resume]
    split
    · exact List.suffix_rfl
    · exact (skipAfter_suffix t ts).trans (List.suffix_cons t ts)

theorem resume_length_lt {closers : List Kind} {t : Token} (inside : t.kind ∉ closers)
    (ts : List Token) : (resume closers (t :: ts)).length < (t :: ts).length := by
  rw [resume, if_neg inside]
  exact Nat.lt_succ_of_le (skipAfter_suffix t ts).length_le

section Statements

variable {inner : Rules} {statement : Setting → Parser Stmt}

theorem advancing_item (further : inner.Advancing) {setting : Setting}
    (nested : Advancing (statement setting)) : Advancing (item inner statement setting) :=
  Advancing.accept_bind
    (fun _ _ => Advancing.toOrderly (passes_moves.declaration trivial further)) nested

theorem entry_length_lt (further : inner.Advancing) {setting : Setting}
    (nested : Advancing (statement setting)) {t : Token} (inside : t.kind ∉ setting.closers)
    (ts : List Token) :
    (entry inner statement setting (t :: ts)).rest.length < (t :: ts).length := by
  have advancing := advancing_item further nested
  rw [entry_eq, recover]
  split
  · rename_i read
    have taken := advancing.consumes (t :: ts)
    rw [read] at taken
    exact taken rfl
  · rename_i rest complaints read
    have kept := advancing.suffix (t :: ts)
    rw [read] at kept
    obtain same | shorter := List.suffix_cons_iff.1 kept
    · simp only at same
      rw [same]
      exact resume_length_lt inside ts
    · exact Nat.lt_succ_of_le ((resume_suffix _ rest).trans shorter).length_le

end Statements

section Entries

variable {one : Parser (Option Stmt)} {closers : List Kind}

theorem entriesUpTo_of_closed (count : Nat) {ts : List Token}
    (closed : ∀ t ∈ ts.head?, t.kind ∈ closers) :
    entriesUpTo one closers count ts = ⟨some [], ts, []⟩ := by
  match count, ts with
  | 0, ts => rfl
  | count + 1, [] => rfl
  | count + 1, t :: ts =>
    rw [entriesUpTo, next_bind]
    simp only [List.head?_cons, closed t rfl, if_true]
    rfl

theorem entriesUpTo_of_inside (count : Nat) {t : Token} (inside : t.kind ∉ closers)
    (ts : List Token) :
    entriesUpTo one closers (count + 1) (t :: ts) =
      (one >>= fun first => entriesUpTo one closers count >>= fun rest =>
        pure (first :: rest)) (t :: ts) := by
  rw [entriesUpTo, next_bind]
  simp only [List.head?_cons, inside, if_false]

/-- Each entry takes a token, so as many rounds as tokens are enough. -/
theorem entriesUpTo_count
    (shrinks : ∀ t ts, t.kind ∉ closers → (one (t :: ts)).rest.length < (t :: ts).length)
    {count other : Nat} {ts : List Token} (enough : ts.length ≤ count)
    (plenty : ts.length ≤ other) :
    entriesUpTo one closers count ts = entriesUpTo one closers other ts := by
  induction count generalizing other ts with
  | zero =>
    have empty : ts = [] := List.length_eq_zero_iff.1 (Nat.le_zero.1 enough)
    subst empty
    rw [entriesUpTo_of_closed 0 (by simp), entriesUpTo_of_closed other (by simp)]
  | succ count ih =>
    match ts, other with
    | [], other => rw [entriesUpTo_of_closed _ (by simp), entriesUpTo_of_closed _ (by simp)]
    | t :: ts, other + 1 =>
      by_cases closed : t.kind ∈ closers
      · have all : ∀ u ∈ (t :: ts).head?, u.kind ∈ closers := by simpa using closed
        rw [entriesUpTo_of_closed _ all, entriesUpTo_of_closed _ all]
      · rw [entriesUpTo_of_inside count closed, entriesUpTo_of_inside other closed]
        have shorter := shrinks t ts closed
        match read : one (t :: ts) with
        | ⟨none, mid, complaints⟩ => rw [bind_of_none _ read, bind_of_none _ read]
        | ⟨some first, mid, complaints⟩ =>
          rw [read] at shorter
          have room : mid.length ≤ ts.length := Nat.le_of_lt_succ shorter
          simp only [List.length_cons, Nat.add_le_add_iff_right] at enough plenty
          have same := ih (Nat.le_trans room enough) (Nat.le_trans room plenty)
          rw [bind_of_some _ read, bind_of_some _ read]
          simp only [bind, Parser.bind, same]

end Entries

section Bodies

variable {each : Setting → Parser (Option Stmt)} {setting : Setting}

theorem entries_of_closed {ts : List Token} (closed : ∀ t ∈ ts.head?, t.kind ∈ setting.closers) :
    entries each setting ts = ⟨some [], ts, []⟩ := by
  rw [entries, remaining_bind, entriesUpTo_of_closed _ closed]

theorem entries_of_inside
    (shrinks : ∀ t ts, t.kind ∉ setting.closers →
      (each setting (t :: ts)).rest.length < (t :: ts).length)
    {t : Token} (inside : t.kind ∉ setting.closers) (ts : List Token) :
    entries each setting (t :: ts) =
      (each setting >>= fun first => entries each setting >>= fun rest =>
        pure (first :: rest)) (t :: ts) := by
  rw [entries, remaining_bind, List.length_cons, entriesUpTo_of_inside _ inside]
  have shorter := shrinks t ts inside
  match read : each setting (t :: ts) with
  | ⟨none, mid, complaints⟩ => rw [bind_of_none _ read, bind_of_none _ read]
  | ⟨some first, mid, complaints⟩ =>
    rw [read] at shorter
    have room : mid.length ≤ ts.length := Nat.le_of_lt_succ shorter
    have same := entriesUpTo_count shrinks room (Nat.le_refl mid.length)
    rw [bind_of_some _ read, bind_of_some _ read]
    simp only [bind, Parser.bind, same, remaining, List.nil_append]

end Bodies

def Unfailing {α : Type} (p : Parser α) : Prop :=
  ∀ ts, (p ts).value.isSome

theorem Unfailing.exists_read {α : Type} {p : Parser α} (unfailing : Unfailing p)
    (ts : List Token) :
    ∃ a rest complaints, p ts = ⟨some a, rest, complaints⟩ := by
  obtain ⟨a, value⟩ := Option.isSome_iff_exists.1 (unfailing ts)
  exact ⟨a, (p ts).rest, (p ts).complaints, by rw [← value]⟩

theorem Unfailing.bind {α β : Type} {p : Parser α} {f : α → Parser β} (first : Unfailing p)
    (next : ∀ a, Unfailing (f a)) : Unfailing (p >>= f) := by
  intro ts
  obtain ⟨a, rest, complaints, read⟩ := first.exists_read ts
  rw [bind_of_some _ read]
  exact next a rest

theorem unfailing_recover {α : Type} (resume : List Token → List Token) (p : Parser α) :
    Unfailing (recover resume p) := by
  intro ts
  rw [recover]
  split <;> rfl

theorem unfailing_entry (inner : Rules) (statement : Setting → Parser Stmt) (setting : Setting) :
    Unfailing (entry inner statement setting) :=
  unfailing_recover _ _

theorem unfailing_entries (inner : Rules) (statement : Setting → Parser Stmt) (setting : Setting) :
    Unfailing (entries (entry inner statement) setting) := by
  have upTo (count : Nat) :
      Unfailing (entriesUpTo (entry inner statement setting) setting.closers count) := by
    induction count with
    | zero => exact fun _ => rfl
    | succ count ih =>
      refine Unfailing.bind (fun _ => rfl) fun found => ?_
      cases found with
      | none => exact fun _ => rfl
      | some t =>
        dsimp only
        split
        · exact fun _ => rfl
        · exact (unfailing_entry inner statement setting).bind fun _ => ih.bind fun _ _ => rfl
  exact Unfailing.bind (fun _ => rfl) upTo

theorem thorough_moves : Thorough .same fun strict _ A p _ =>
    Moves strict p ∧ ∀ a, Yields p a → ∃ b, A a b := by
  refine passes_moves.thorough Orderly.complain Orderly.next Orderly.remaining ?_
  intro _ strict p closers moves
  refine Orderly.recover ?_ (resume_suffix closers)
  cases strict with
  | true => exact Advancing.toOrderly moves
  | false => exact moves

theorem advancing_statement (depth : Nat) (setting : Setting) :
    Advancing (statement depth setting) :=
  (thorough_moves.statement depth setting).1

theorem unfailing_program : Unfailing program :=
  unfailing_entries _ _ _

theorem program_nil : program [] = ⟨some [], [], []⟩ :=
  entries_of_closed (by simp)

theorem orderly_program : Orderly program :=
  thorough_moves.program.1

/-- An entry at the start of a program takes a token, and the program that is left follows it. -/
theorem program_cons (t : Token) (ts : List Token) :
    ∃ first mid complaints,
      entry (Rules.within nestingLimit) (statement nestingLimit) .top (t :: ts) =
        ⟨some first, mid, complaints⟩ ∧
      mid.length ≤ ts.length ∧
      program (t :: ts) = ⟨(program mid).value.map (first :: ·), (program mid).rest,
        complaints ++ (program mid).complaints⟩ := by
  have shrinks := fun (t : Token) ts (inside : t.kind ∉ Setting.top.closers) =>
    entry_length_lt (advancing_within nestingLimit) (advancing_statement nestingLimit .top) inside ts
  have inside : t.kind ∉ Setting.top.closers := by simp [Setting.top]
  obtain ⟨first, mid, complaints, read⟩ :=
    (unfailing_entry (Rules.within nestingLimit) (statement nestingLimit) .top).exists_read (t :: ts)
  have shorter := shrinks t ts inside
  rw [read] at shorter
  refine ⟨first, mid, complaints, read, Nat.le_of_lt_succ shorter, ?_⟩
  rw [program, entries_of_inside shrinks inside, bind_of_some _ read]
  match further : entries (entry (Rules.within nestingLimit) (statement nestingLimit)) .top mid with
  | ⟨none, rest, complaints⟩ => rw [bind_of_none _ further]; rfl
  | ⟨some found, rest, complaints⟩ => rw [bind_of_some _ further, pure_apply, List.append_nil]; rfl

theorem rest_program (ts : List Token) : (program ts).rest = [] := by
  match ts with
  | [] => rw [program_nil]
  | t :: ts =>
    obtain ⟨first, mid, complaints, -, shorter, whole⟩ := program_cons t ts
    rw [whole]
    exact rest_program mid
termination_by ts.length

end Parser

namespace Reading

variable {ts : List Token} {finish : Token}

theorem content_append (bare : ∀ t ∈ ts, t.kind ≠ .finish) (closed : finish.kind = .finish)
    (more : List Token) : content (ts ++ finish :: more) = ts := by
  rw [content, List.takeWhile_append_of_pos (by simpa using bare)]
  simp [closed]

theorem closing_append (bare : ∀ t ∈ ts, t.kind ≠ .finish) (closed : finish.kind = .finish)
    (more : List Token) : closing (ts ++ finish :: more) = finish := by
  have none : ts.find? (·.kind == .finish) = none := by simpa using bare
  rw [closing, List.find?_append, none]
  simp [closed]

end Reading

end Scriptlet
