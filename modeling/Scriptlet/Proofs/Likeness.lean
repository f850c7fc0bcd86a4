import Scriptlet.Proofs.Progress

/-! Reading looks at what tokens are and not at where they stand. Token lists that are alike one by
one, under a relation that keeps kind, lexeme and literal, are read to trees and complaints that are
alike in the same way, and in these trees every operator has a meaning where it stands. -/
namespace Scriptlet

/-- A relation between tokens that are the same but for their places. It is kept when a compound
assignment is taken apart. -/
structure Likeness (R : Token → Token → Prop) : Prop where
  kind : ∀ {t u : Token}, R t u → t.kind = u.kind
  lexeme : ∀ {t u : Token}, R t u → t.lexeme = u.lexeme
  literal : ∀ {t u : Token}, R t u → t.literal = u.literal
  compound : ∀ {t u x y : Token}, R t u → Expr.compound? t = some x →
    Expr.compound? u = some y → R x y

/-- The same tree over tokens that are alike, with operators in their places. -/
inductive Expr.Like (R : Token → Token → Prop) : Expr → Expr → Prop
  | literal {v : Value} : Like R (.literal v) (.literal v)
  | var {t u : Token} : R t u → Like R (.var t) (.var u)
  | assign {t u : Token} {e d : Expr} : R t u → Like R e d → Like R (.assign t e) (.assign u d)
  | group {e d : Expr} : Like R e d → Like R (.group e) (.group d)
  | unary {t u : Token} {e d : Expr} : R t u → t.kind.isSign → Like R e d →
      Like R (.unary t e) (.unary u d)
  | binary {t u : Token} {e e' d d' : Expr} : R t u → t.kind.isBinary → Like R e d → Like R e' d' →
      Like R (.binary e t e') (.binary d u d')
  | logical {t u : Token} {e e' d d' : Expr} : R t u → t.kind.isLogical → Like R e d →
      Like R e' d' → Like R (.logical e t e') (.logical d u d')
  | choice {e e' e'' d d' d'' : Expr} : Like R e d → Like R e' d' → Like R e'' d'' →
      Like R (.choice e e' e'') (.choice d d' d'')
  | step {t u : Token} {e d : Expr} : R t u → t.kind.isStep → Like R e d →
      Like R (.step e t) (.step d u)

namespace Stmt

mutual

inductive Like (R : Token → Token → Prop) : Stmt → Stmt → Prop
  | expr {e d : Expr} : e.Like R d → Like R (.expr e) (.expr d)
  | print {t u : Token} {e d : Expr} : R t u → e.Like R d → Like R (.print t e) (.print u d)
  | declareNil {t u : Token} : R t u → Like R (.declare t none) (.declare u none)
  | declare {t u : Token} {e d : Expr} : R t u → e.Like R d →
      Like R (.declare t (some e)) (.declare u (some d))
  | block {xs ys : List Stmt} : AllLike R xs ys → Like R (.block xs) (.block ys)
  | branch {e d : Expr} {xs ys xs' ys' : List Stmt} : e.Like R d → AllLike R xs ys →
      AllLike R xs' ys' → Like R (.branch e xs xs') (.branch d ys ys')
  | loop {e d : Expr} {s s' : Stmt} : e.Like R d → Like R s s' → Like R (.loop e s) (.loop d s')
  | leave {t u : Token} : R t u → Like R (.leave t) (.leave u)

inductive AllLike (R : Token → Token → Prop) : List Stmt → List Stmt → Prop
  | nil : AllLike R [] []
  | cons {s s' : Stmt} {xs ys : List Stmt} : Like R s s' → AllLike R xs ys →
      AllLike R (s :: xs) (s' :: ys)

end

variable {R : Token → Token → Prop}

theorem AllLike.of_forall₂ {xs ys : List Stmt} (like : List.Forall₂ (Like R) xs ys) :
    AllLike R xs ys := by
  induction like with
  | nil => exact .nil
  | cons first _ ih => exact .cons first ih

theorem AllLike.filterMap {xs ys : List (Option Stmt)}
    (like : List.Forall₂ (Option.Rel (Like R)) xs ys) :
    AllLike R (xs.filterMap id) (ys.filterMap id) :=
  .of_forall₂ (List.rel_filterMap (fun _ _ same => same) like)

end Stmt

structure Complaint.Like (R : Token → Token → Prop) (c d : Complaint) : Prop where
  token : Option.Rel R c.token? d.token?
  mistake : c.mistake = d.mistake

/-- Reading steps that are alike, with values in a relation of their own. -/
structure Step.Like {α β : Type} (R : Token → Token → Prop) (A : α → β → Prop) (x : Step α)
    (y : Step β) :
    Prop where
  value : Option.Rel A x.value y.value
  rest : List.Forall₂ R x.rest y.rest
  complaints : List.Forall₂ (Complaint.Like R) x.complaints y.complaints

namespace Parser

def Alike {α β : Type} (R : Token → Token → Prop) (A : α → β → Prop) (p : Parser α)
    (q : Parser β) : Prop :=
  ∀ ts us, List.Forall₂ R ts us → (p ts).Like R A (q us)

section Combinators

variable {R : Token → Token → Prop} {α β γ δ : Type} {A : α → β → Prop} {B : γ → δ → Prop}

theorem head_alike {ts us : List Token} (like : List.Forall₂ R ts us) :
    Option.Rel R ts.head? us.head? := by
  cases like with
  | nil => exact .none
  | cons first _ => exact .some first

theorem Alike.pure {a : α} {b : β} (related : A a b) :
    Alike R A (Pure.pure a : Parser α) (Pure.pure b : Parser β) :=
  fun _ _ like => ⟨.some related, like, .nil⟩

theorem Alike.bind {p : Parser α} {q : Parser β} {f : α → Parser γ} {g : β → Parser δ}
    (first : Alike R A p q) (next : ∀ a b, A a b → Alike R B (f a) (g b)) :
    Alike R B (p >>= f) (q >>= g) := by
  intro ts us like
  have step := first ts us like
  match read : p ts, other : q us, step with
  | ⟨none, rest, complaints⟩, ⟨none, rest', complaints'⟩, step =>
    rw [bind_of_none _ read, bind_of_none _ other]
    exact ⟨.none, step.rest, step.complaints⟩
  | ⟨some a, rest, complaints⟩, ⟨some b, rest', complaints'⟩, step =>
    rw [bind_of_some _ read, bind_of_some _ other]
    obtain ⟨⟨related⟩, rest, complaints⟩ := step
    have further := next a b related _ _ rest
    exact ⟨further.value, further.rest, List.rel_append complaints further.complaints⟩
  | ⟨none, _, _⟩, ⟨some _, _, _⟩, step => nomatch step.value
  | ⟨some _, _, _⟩, ⟨none, _, _⟩, step => nomatch step.value

theorem Alike.fail (m : Mistake) : Alike R A (Parser.fail m) (Parser.fail m) :=
  fun _ _ like => ⟨.none, like, .cons ⟨head_alike like, rfl⟩ .nil⟩

theorem Alike.complain {t u : Token} (related : R t u) (m : Mistake) :
    Alike R (fun _ _ => True) (Parser.complain t m) (Parser.complain u m) :=
  fun _ _ like => ⟨.some trivial, like, .cons ⟨.some related, rfl⟩ .nil⟩

theorem Alike.next : Alike R (Option.Rel R) next? next? :=
  fun _ _ like => ⟨.some (head_alike like), like, .nil⟩

theorem Alike.counted {p : Nat → Parser γ} {q : Nat → Parser δ}
    (each : ∀ count, Alike R B (p count) (q count)) :
    Alike R B (remaining >>= p) (remaining >>= q) := by
  intro ts us like
  rw [remaining_bind, remaining_bind, ← like.length_eq]
  exact each ts.length ts us like

theorem Alike.accept (likeness : Likeness R) (kinds : List Kind) :
    Alike R (Option.Rel fun t u => R t u ∧ t.kind ∈ kinds) (Parser.accept kinds)
      (Parser.accept kinds) := by
  intro ts us like
  cases like with
  | nil => exact ⟨.some .none, .nil, .nil⟩
  | cons first rest =>
    simp only [Parser.accept, ← likeness.kind first]
    split
    · exact ⟨.some (.some ⟨first, ‹_›⟩), rest, .nil⟩
    · exact ⟨.some .none, .cons first rest, .nil⟩

theorem Alike.accept_bind (likeness : Likeness R) {kinds : List Kind} {f : Option Token → Parser γ}
    {g : Option Token → Parser δ}
    (found : ∀ t u, R t u → t.kind ∈ kinds → Alike R B (f (some t)) (g (some u)))
    (absent : Alike R B (f none) (g none)) :
    Alike R B (Parser.accept kinds >>= f) (Parser.accept kinds >>= g) := by
  refine (Alike.accept likeness kinds).bind fun a b related => ?_
  cases related with
  | none => exact absent
  | some both => exact found _ _ both.1 both.2

theorem Alike.recover {p : Parser α} {q : Parser β} {resume : List Token → List Token}
    (kept : ∀ ts us, List.Forall₂ R ts us → List.Forall₂ R (resume ts) (resume us))
    (first : Alike R A p q) :
    Alike R (Option.Rel A) (Parser.recover resume p) (Parser.recover resume q) := by
  intro ts us like
  have step := first ts us like
  obtain ⟨value, rest, complaints⟩ := step
  simp only [Parser.recover]
  generalize p ts = s, q us = t at value rest complaints
  obtain ⟨x, _, _⟩ := s
  obtain ⟨y, _, _⟩ := t
  cases value with
  | none => exact ⟨.some .none, kept _ _ rest, complaints⟩
  | some like => exact ⟨.some (.some like), rest, complaints⟩

end Combinators

end Parser

namespace Parser

section Readers

variable {R : Token → Token → Prop}

theorem atom?_alike (likeness : Likeness R) {t u : Token} (related : R t u) :
    Option.Rel (Expr.Like R) (Expr.atom? t) (Expr.atom? u) := by
  unfold Expr.atom?
  rw [← likeness.kind related, ← likeness.literal related]
  split
  · exact .some .literal
  · exact .some .literal
  · exact .some .literal
  · exact .some .literal
  · exact .some .literal
  · exact .some (.var related)
  · exact .none

theorem alike_atom (likeness : Likeness R) : Alike R (Expr.Like R) atom atom := by
  refine Alike.next.bind fun a b related => ?_
  have read : Option.Rel (Expr.Like R) (a.bind Expr.atom?) (b.bind Expr.atom?) := by
    cases related with
    | none => exact .none
    | some related => exact atom?_alike likeness related
  revert read
  generalize a.bind Expr.atom? = found
  generalize b.bind Expr.atom? = found'
  intro read
  cases read with
  | none => exact .fail .expression
  | some like =>
    intro ts us both
    cases both with
    | nil => exact ⟨.some like, .nil, .nil⟩
    | cons _ rest => exact ⟨.some like, rest, .nil⟩

theorem isBinary_of_compound {t x : Token} (plain : Expr.compound? t = some x) :
    x.kind.isBinary := by
  unfold Expr.compound? at plain
  split at plain <;> cases plain <;> rfl

theorem assigned_alike (likeness : Likeness R) {name name' t u : Token} {e d : Expr}
    (names : R name name') (operators : R t u) (like : e.Like R d) :
    (Expr.assigned name t e).Like R (Expr.assigned name' u d) := by
  have same : (Expr.compound? u).map Token.kind = (Expr.compound? t).map Token.kind := by
    simp only [Expr.compound?, ← likeness.kind operators]
    split <;> rfl
  unfold Expr.assigned
  cases plain : Expr.compound? t with
  | none =>
    rw [plain, Option.map_none, Option.map_eq_none_iff] at same
    rw [same]
    exact .assign names like
  | some x =>
    rw [plain, Option.map_some] at same
    obtain ⟨y, other, -⟩ := Option.map_eq_some_iff.1 same
    rw [other]
    exact .assign names (.binary (likeness.compound operators plain other)
      (isBinary_of_compound plain) (.var names) like)

theorem skipAfter_alike (likeness : Likeness R) {last last' : Token} (related : R last last')
    {ts us : List Token} (like : List.Forall₂ R ts us) :
    List.Forall₂ R (skipAfter last ts) (skipAfter last' us) := by
  induction like generalizing last last' with
  | nil => exact .nil
  | cons first rest ih =>
    simp only [skipAfter, ← likeness.kind related, ← likeness.kind first]
    split
    · exact .cons first rest
    · exact ih first

theorem resume_alike (likeness : Likeness R) (closers : List Kind) (ts us : List Token)
    (like : List.Forall₂ R ts us) : List.Forall₂ R (resume closers ts) (resume closers us) := by
  cases like with
  | nil => exact .nil
  | cons first rest =>
    simp only [resume, ← likeness.kind first]
    split
    · exact .cons first rest
    · exact skipAfter_alike likeness first rest

end Readers

end Parser

def Likeness.trees {R : Token → Token → Prop} (likeness : Likeness R) : TreeRelation where
  token := R
  expr _ := Expr.Like R
  stmt _ := Stmt.Like R
  kind := likeness.kind
  expr_mono _ := id
  truth := .literal
  group := .group
  unary := .unary
  step := .step
  binary := .binary
  logical := .logical
  choice := .choice
  target like := by
    cases like with
    | @var t u _ => exact .inl ⟨t, u, rfl, rfl⟩
    | _ => exact .inr ⟨by simp, by simp⟩
  assigned named operators like := by
    cases named with
    | var names => exact Parser.assigned_alike likeness names operators like
  stmt_mono _ := id
  expression := .expr
  print related _ := .print related
  declare related _ initial := by
    cases initial with
    | none => exact .declareNil related
    | some like => exact .declare related like
  block like := .block (.of_forall₂ like)
  branch like first second := .branch like (.of_forall₂ first) (.of_forall₂ second)
  loop := .loop

namespace Parser

variable {R : Token → Token → Prop}

theorem thorough_alike (likeness : Likeness R) :
    Thorough likeness.trees fun _ _ A p q => Alike R A p q where
  toCongruence := by
    refine Stepwise.congruence ?_ (alike_atom likeness) (fun each => ?_) (Alike.complain · .target)
    · exact ⟨fun _ _ => trivial, id, .pure, .bind, fun _ => .fail _, fun _ => .accept_bind likeness⟩
    · exact .counted each
  complain related _ := .complain related _
  leave related _ := .leave related
  looks := by
    intro _ _ _ _ absent found
    refine Alike.next.bind fun a b related => ?_
    cases related with
    | none => exact absent
    | some related => exact found _ _ (likeness.kind related)
  counted := .counted
  recover closers := .recover (resume_alike likeness closers)

theorem alike_within (likeness : Likeness R) (depth : Nat) :
    (Rules.within depth).Each fun p => Alike R (Expr.Like R) p p :=
  (thorough_alike likeness).within depth

/-- Programs of tokens that are alike are read alike. -/
theorem alike_program (likeness : Likeness R) :
    Alike R (List.Forall₂ (Option.Rel (Stmt.Like R))) program program :=
  (thorough_alike likeness).program

end Parser

end Scriptlet
