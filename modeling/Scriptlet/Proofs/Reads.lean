import Scriptlet.Stmt.Parse

/-! Clean readings. A parser reads `a` from `ts` up to `rest` if it yields `a`, leaves `rest` and
complains about nothing. Every combinator is described by what it reads, so that the rules of the
grammar can be compared with the parsers without looking at a single step. -/
namespace Scriptlet

namespace Parser

variable {α β : Type} {p : Parser α} {f : α → Parser β} {ts rest : List Token} {a : α} {b : β}

def Reads (p : Parser α) (ts : List Token) (a : α) (rest : List Token) : Prop :=
  p ts = ⟨some a, rest, []⟩

theorem map_apply (g : α → β) (p : Parser α) (ts : List Token) :
    (g <$> p) ts = ⟨(p ts).value.map g, (p ts).rest, (p ts).complaints⟩ := by
  have unfolded : g <$> p = p >>= fun a => pure (g a) := rfl
  rw [unfolded]
  match read : p ts with
  | ⟨none, rest, complaints⟩ => rw [bind_of_none _ read]; rfl
  | ⟨some a, rest, complaints⟩ => simp [bind_of_some _ read, pure_apply]

theorem accept_bind_mem {kinds : List Kind} {t : Token} (f : Option Token → Parser β)
    (found : t.kind ∈ kinds) (ts : List Token) :
    (accept kinds >>= f) (t :: ts) = f (some t) ts := by
  have taken : accept kinds (t :: ts) = ⟨some (some t), ts, []⟩ := by simp [accept, found]
  rw [bind_of_some f taken]
  rfl

theorem accept_bind_not_mem {kinds : List Kind} {ts : List Token} (f : Option Token → Parser β)
    (absent : ∀ t ∈ ts.head?, t.kind ∉ kinds) :
    (accept kinds >>= f) ts = f none ts := by
  have left : accept kinds ts = ⟨some none, ts, []⟩ := by
    cases ts with
    | nil => rfl
    | cons t ts => simp [accept, absent t rfl]
  rw [bind_of_some f left]
  rfl

theorem accept_bind_cases (kinds : List Kind) (f : Option Token → Parser β) (ts : List Token) :
    (∃ t rest, ts = t :: rest ∧ t.kind ∈ kinds ∧ (accept kinds >>= f) ts = f (some t) rest) ∨
      (∀ t ∈ ts.head?, t.kind ∉ kinds) ∧ (accept kinds >>= f) ts = f none ts := by
  by_cases absent : ∀ t ∈ ts.head?, t.kind ∉ kinds
  · exact .inr ⟨absent, accept_bind_not_mem f absent⟩
  · match ts with
    | [] => simp at absent
    | t :: rest =>
      have found : t.kind ∈ kinds := by simpa using absent
      exact .inl ⟨t, rest, rfl, found, accept_bind_mem f found rest⟩

theorem next_bind (f : Option Token → Parser β) (ts : List Token) :
    (next? >>= f) ts = f ts.head? ts := rfl

theorem remaining_bind (f : Nat → Parser β) (ts : List Token) :
    (remaining >>= f) ts = f ts.length ts := rfl

theorem atom_cases (ts : List Token) :
    (∃ t rest e, ts = t :: rest ∧ Expr.atom? t = some e ∧ atom ts = ⟨some e, rest, []⟩) ∨
      atom ts = (fail .expression : Parser Expr) ts := by
  match ts with
  | [] => exact .inr rfl
  | t :: rest =>
    cases read : Expr.atom? t with
    | none => exact .inr (by simp [atom, next_bind, read])
    | some e => exact .inl ⟨t, rest, e, rfl, read, by simp [atom, next_bind, read]⟩

theorem expect_of_kind {kind : Kind} {t : Token} (m : Mistake) (same : t.kind = kind)
    (ts : List Token) : expect kind m (t :: ts) = ⟨some t, ts, []⟩ := by
  rw [expect, accept_bind_mem _ (by simp [same])]
  rfl

theorem expect_of_other {kind : Kind} {ts : List Token} (m : Mistake)
    (other : ∀ t ∈ ts.head?, t.kind ≠ kind) : expect kind m ts = ⟨none, ts, [⟨ts.head?, m⟩]⟩ := by
  rw [expect, accept_bind_not_mem _ (by simpa using other)]
  rfl

@[simp] theorem reads_pure {x : α} : Reads (pure x) ts a rest ↔ a = x ∧ rest = ts := by
  simp [Reads, pure_apply, eq_comm]

@[simp] theorem reads_bind :
    Reads (p >>= f) ts b rest ↔ ∃ a mid, Reads p ts a mid ∧ Reads (f a) mid b rest := by
  simp only [Reads]
  constructor
  · intro read
    match found : p ts with
    | ⟨none, mid, complaints⟩ =>
      rw [bind_of_none f found] at read
      simp at read
    | ⟨some a, mid, complaints⟩ =>
      rw [bind_of_some f found] at read
      simp only [Step.mk.injEq, List.append_eq_nil_iff] at read
      obtain ⟨value, rest, silent, next⟩ := read
      refine ⟨a, mid, by rw [silent], ?_⟩
      rw [← value, ← rest, ← next]
  · rintro ⟨a, mid, first, second⟩
    rw [bind_of_some f first, second]
    rfl

@[simp] theorem reads_map {g : α → β} :
    Reads (g <$> p) ts b rest ↔ ∃ a, Reads p ts a rest ∧ b = g a := by
  have unfolded : g <$> p = p >>= fun a => pure (g a) := rfl
  simp only [unfolded, reads_bind, reads_pure]
  constructor
  · rintro ⟨a, mid, read, value, same⟩
    exact ⟨a, same ▸ read, value⟩
  · rintro ⟨a, read, value⟩
    exact ⟨a, rest, read, value, rfl⟩

@[simp] theorem not_reads_fail {m : Mistake} : ¬ Reads (fail m : Parser α) ts a rest := by
  simp [Reads, fail]

@[simp] theorem not_reads_complain {t : Token} {m : Mistake} {u : Unit} :
    ¬ Reads (complain t m) ts u rest := by
  simp [Reads, complain]

theorem reads_accept_bind {kinds : List Kind} {f : Option Token → Parser β} :
    Reads (accept kinds >>= f) ts b rest ↔
      (∃ t mid, ts = t :: mid ∧ t.kind ∈ kinds ∧ Reads (f (some t)) mid b rest) ∨
      ((∀ t ∈ ts.head?, t.kind ∉ kinds) ∧ Reads (f none) ts b rest) := by
  obtain ⟨t, mid, rfl, found, taken⟩ | ⟨absent, left⟩ := accept_bind_cases kinds f ts
  · rw [Reads, taken]
    constructor
    · exact fun read => .inl ⟨t, mid, rfl, found, read⟩
    · rintro (⟨u, other, ⟨⟩, -, read⟩ | ⟨absent, -⟩)
      · exact read
      · exact absurd found (absent t rfl)
  · rw [Reads, left]
    constructor
    · exact fun read => .inr ⟨absent, read⟩
    · rintro (⟨t, mid, rfl, found, -⟩ | ⟨-, read⟩)
      · exact absurd found (absent t rfl)
      · exact read

@[simp] theorem reads_next_bind {f : Option Token → Parser β} :
    Reads (next? >>= f) ts b rest ↔ Reads (f ts.head?) ts b rest := Iff.rfl

@[simp] theorem reads_remaining_bind {f : Nat → Parser β} :
    Reads (remaining >>= f) ts b rest ↔ Reads (f ts.length) ts b rest := Iff.rfl

@[simp] theorem reads_expect {kind : Kind} {m : Mistake} {t : Token} :
    Reads (expect kind m) ts t rest ↔ ts = t :: rest ∧ t.kind = kind := by
  rw [expect, reads_accept_bind]
  simp only [List.mem_singleton, reads_pure, not_reads_fail, and_false, or_false]
  constructor
  · rintro ⟨u, mid, rfl, same, rfl, rfl⟩
    exact ⟨rfl, same⟩
  · rintro ⟨rfl, same⟩
    exact ⟨t, rest, rfl, same, rfl, rfl⟩

end Parser
end Scriptlet
