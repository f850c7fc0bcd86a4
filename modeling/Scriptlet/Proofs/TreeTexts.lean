import Scriptlet.Proofs.Legible
import Scriptlet.Proofs.Replies

/-! The text of a tree tells it from every other tree that can be read, but for the places of its tokens.
An outline gives away which constructor it was made from, and the words in it are spelled in one way. -/
namespace Scriptlet

open Outline

namespace Token

theorem Spelled.fixed {t : Token} (spelled : t.Spelled) (fixed : t.kind.isFixed) :
    (t.lexeme, t.kind) ∈ Kind.fixed := by
  obtain ⟨text, rest, spelling, lexeme⟩ := spelled
  generalize t.kind = kind, t.literal = literal at lexeme fixed
  rw [spelling]
  cases lexeme with
  | operator member => exact List.mem_append_left _ member
  | reserved member => exact List.mem_append_right _ member
  | name => exact absurd fixed (by decide)
  | whole => exact absurd fixed (by decide)
  | decimal => exact absurd fixed (by decide)
  | string => exact absurd fixed (by decide)

theorem Spelled.moved_of_kind {t u : Token} (first : t.Spelled) (second : u.Spelled)
    (fixed : t.kind.isFixed) (same : t.kind = u.kind) : t.Moved u := by
  have table : ∀ a ∈ Kind.fixed, ∀ b ∈ Kind.fixed, a.2 = b.2 → a.1 = b.1 := by decide +kernel
  exact first.moved second (table _ (first.fixed fixed) _ (second.fixed (same ▸ fixed)) same)

theorem Spelled.name {t : Token} (spelled : t.Spelled) (name : t.kind = .name) :
    t.lexeme.toList.head?.any Piece.isNameStart ∧ t.lexeme ∉ Value.constants.map Value.listing := by
  have reserved : ∀ word ∈ Value.constants.map Value.listing, word ∈ Kind.reserved.map Prod.fst := by
    simp [Value.constants, Value.listing, Value.write, Kind.reserved]
  have marks : ∀ entry ∈ Kind.fixed, entry.2 ≠ .name := by decide
  obtain ⟨text, rest, spelling, lexeme⟩ := spelled
  rw [name] at lexeme
  generalize t.literal = literal at lexeme
  rw [spelling]
  cases lexeme with
  | operator member => exact absurd rfl (marks _ (List.mem_append_left _ member))
  | reserved member => exact absurd rfl (marks _ (List.mem_append_right _ member))
  | name word other =>
    refine ⟨?_, fun constant => ?_⟩
    · obtain ⟨c, cs, rfl⟩ := List.exists_cons_of_ne_nil word.2.1
      simpa using Lexical.letter_iff.1 (word.1 c rfl)
    · obtain ⟨⟨text, kind⟩, member, rfl⟩ := List.mem_map.1 (reserved _ constant)
      exact other kind member

end Token

namespace Value

theorem number_ne_constant {x : Float} (finite : x.isFinite) {v : Value} (constant : v ∈ constants) :
    (number x).outline ≠ v.outline := by
  obtain ⟨written, -, c, member, start⟩ := constant_form constant
  intro same
  rw [written] at same
  rw [← Outline.word.inj same] at member
  exact absurd start (by simp [(number_form finite).2 c member])

theorem outline_injective {v w : Value} (finite : v.finite) (finite' : w.finite)
    (same : v.outline = w.outline) : v = w := by
  cases v with
  | nil =>
    cases w with
    | nil => rfl
    | bool b => cases b <;> simp [outline, listing, write] at same
    | number y => exact absurd same.symm (number_ne_constant finite' (by simp [constants]))
    | string t => simp [outline] at same
  | bool a =>
    cases w with
    | nil => cases a <;> simp [outline, listing, write] at same
    | bool b => cases a <;> cases b <;> simp [outline, listing, write] at same ⊢
    | number y => exact absurd same.symm (number_ne_constant finite' (mem_constants a))
    | string t => simp [outline] at same
  | number x =>
    cases w with
    | nil => exact absurd same (number_ne_constant finite (by simp [constants]))
    | bool b => exact absurd same (number_ne_constant finite (mem_constants b))
    | number y => exact congrArg number (Number.text_injective finite finite' (Outline.word.inj same))
    | string t => simp [outline] at same
  | string s =>
    cases w with
    | string t => exact congrArg string (Outline.quoted.inj same)
    | _ => simp [outline] at same

end Value

namespace Expr

/-- The constructors. -/
inductive Shape where
  | literal
  | var
  | assign
  | group
  | unary
  | binary
  | logical
  | choice
  | step
deriving DecidableEq

def shape : Expr → Shape
  | .literal _ => .literal
  | .var _ => .var
  | .assign .. => .assign
  | .group _ => .group
  | .unary .. => .unary
  | .binary .. => .binary
  | .logical .. => .logical
  | .choice .. => .choice
  | .step .. => .step

def Shape.ofHead (head : String) (count : Nat) : Shape :=
  if count = 3 then .choice
  else if count = 1 then
    if head ∈ ["-", "!"] then .unary else if head ∈ ["++", "--"] then .step else .group
  else if head = "=" then .assign
  else if head ∈ ["and", "or"] then .logical
  else .binary

def Shape.ofOutline : Outline → Shape
  | .quoted _ => .literal
  | .word text =>
    if text.toList.head?.any Piece.isNameStart ∧ text ∉ Value.constants.map Value.listing then .var
    else .literal
  | .form head operands => .ofHead head operands.length

theorem shape_literal {v : Value} (finite : v.finite) : .ofOutline v.outline = Shape.literal := by
  cases v with
  | nil => simp [Shape.ofOutline, Value.outline, Value.constants]
  | bool b => cases b <;> simp [Shape.ofOutline, Value.outline, Value.constants]
  | number x =>
    refine if_neg fun name => ?_
    obtain ⟨c, head, start⟩ := (Option.any_eq_true _ _).1 name.1
    exact absurd start (by simp [(Value.number_form finite).2 c (List.mem_of_mem_head? head)])
  | string s => rfl

theorem shape_eq_ofOutline {e : Expr} (drawn : e.Drawn Token.Spelled) (finite : e.finite) :
    .ofOutline e.outline = e.shape := by
  have signs : ∀ entry ∈ Kind.fixed, entry.2.isSign → Shape.ofHead entry.1 1 = .unary := by decide
  have steps : ∀ entry ∈ Kind.fixed, entry.2.isStep → Shape.ofHead entry.1 1 = .step := by decide
  have marks : ∀ entry ∈ Kind.fixed, entry.2.isBinary → Shape.ofHead entry.1 2 = .binary := by decide
  have words : ∀ entry ∈ Kind.fixed, entry.2.isLogical → Shape.ofHead entry.1 2 = .logical := by decide
  have entry {t : Token} (spelled : t.Spelled) (operator : t.kind.isOperator) :=
    spelled.fixed (Kind.isFixed_of_isOperator operator).1
  cases drawn with
  | literal => exact shape_literal finite
  | var spelled name => exact if_pos (spelled.name name)
  | assign => rfl
  | group => rfl
  | unary spelled kind => exact signs _ (entry spelled (by simp [Kind.isOperator, kind])) kind
  | binary drawn kind => exact marks _ (entry drawn.spelled (by simp [Kind.isOperator, kind])) kind
  | logical spelled kind => exact words _ (entry spelled (by simp [Kind.isOperator, kind])) kind
  | choice => rfl
  | step spelled kind => exact steps _ (entry spelled (by simp [Kind.isOperator, kind])) kind

/-- Trees with one outline are alike. -/
theorem Drawn.like_of_outline {e : Expr} (drawn : e.Drawn Token.Spelled) : ∀ {d : Expr},
    d.Drawn Token.Spelled → e.finite → d.finite → e.outline = d.outline → e.Like Token.Moved d := by
  have shaped {e d : Expr} (drawn : e.Drawn Token.Spelled) (drawn' : d.Drawn Token.Spelled)
      (finite : e.finite) (finite' : d.finite) (same : e.outline = d.outline) : e.shape = d.shape := by
    rw [← shape_eq_ofOutline drawn finite, same, shape_eq_ofOutline drawn' finite']
  induction drawn with
  | literal value =>
    intro d drawn' finite finite' same
    have shape := shaped (.literal value) drawn' finite finite' same
    cases drawn' with
    | literal value' =>
      obtain rfl := Value.outline_injective finite finite' same
      exact .literal
    | _ => simp [Expr.shape] at shape
  | var spelled name =>
    intro d drawn' finite finite' same
    have shape := shaped (.var spelled name) drawn' finite finite' same
    cases drawn' with
    | var spelled' name' => exact .var (spelled.moved spelled' (Outline.word.inj same))
    | _ => simp [Expr.shape] at shape
  | assign spelled name value ih =>
    intro d drawn' finite finite' same
    have shape := shaped (.assign spelled name value) drawn' finite finite' same
    cases drawn' with
    | assign spelled' name' value' =>
      simp only [outline, Outline.form.injEq, List.cons.injEq, Outline.word.injEq, and_true,
        true_and] at same
      exact .assign (spelled.moved spelled' same.1) (ih value' finite finite' same.2)
    | _ => simp [Expr.shape] at shape
  | group inner ih =>
    intro d drawn' finite finite' same
    have shape := shaped (.group inner) drawn' finite finite' same
    cases drawn' with
    | group inner' =>
      simp only [outline, Outline.form.injEq, List.cons.injEq, and_true, true_and] at same
      exact .group (ih inner' finite finite' same)
    | _ => simp [Expr.shape] at shape
  | unary spelled kind right ih =>
    intro d drawn' finite finite' same
    have shape := shaped (.unary spelled kind right) drawn' finite finite' same
    cases drawn' with
    | unary spelled' _ right' =>
      simp only [outline, Outline.form.injEq, List.cons.injEq, and_true] at same
      exact .unary (spelled.moved spelled' same.1) kind (ih right' finite finite' same.2)
    | _ => simp [Expr.shape] at shape
  | binary operator kind left right ih ih' =>
    intro d drawn' finite finite' same
    have shape := shaped (.binary operator kind left right) drawn' finite finite' same
    cases drawn' with
    | binary operator' _ left' right' =>
      simp only [outline, Outline.form.injEq, List.cons.injEq, and_true] at same
      obtain ⟨first, second⟩ := Bool.and_eq_true_iff.1 finite
      obtain ⟨first', second'⟩ := Bool.and_eq_true_iff.1 finite'
      exact .binary (operator.spelled.moved operator'.spelled same.1) kind
        (ih left' first first' same.2.1) (ih' right' second second' same.2.2)
    | _ => simp [Expr.shape] at shape
  | logical spelled kind left right ih ih' =>
    intro d drawn' finite finite' same
    have shape := shaped (.logical spelled kind left right) drawn' finite finite' same
    cases drawn' with
    | logical spelled' _ left' right' =>
      simp only [outline, Outline.form.injEq, List.cons.injEq, and_true] at same
      obtain ⟨first, second⟩ := Bool.and_eq_true_iff.1 finite
      obtain ⟨first', second'⟩ := Bool.and_eq_true_iff.1 finite'
      exact .logical (spelled.moved spelled' same.1) kind
        (ih left' first first' same.2.1) (ih' right' second second' same.2.2)
    | _ => simp [Expr.shape] at shape
  | choice condition consequent alternate ih ih' ih'' =>
    intro d drawn' finite finite' same
    have shape := shaped (.choice condition consequent alternate) drawn' finite finite' same
    cases drawn' with
    | choice condition' consequent' alternate' =>
      simp only [outline, Outline.form.injEq, List.cons.injEq, and_true, true_and] at same
      simp only [Expr.finite, Bool.and_eq_true] at finite finite'
      exact .choice (ih condition' finite.1.1 finite'.1.1 same.1)
        (ih' consequent' finite.1.2 finite'.1.2 same.2.1) (ih'' alternate' finite.2 finite'.2 same.2.2)
    | _ => simp [Expr.shape] at shape
  | step spelled kind operand ih =>
    intro d drawn' finite finite' same
    have shape := shaped (.step spelled kind operand) drawn' finite finite' same
    cases drawn' with
    | step spelled' _ operand' =>
      simp only [outline, Outline.form.injEq, List.cons.injEq, and_true] at same
      exact .step (spelled.moved spelled' same.1) kind (ih operand' finite finite' same.2)
    | _ => simp [Expr.shape] at shape

theorem Drawn.like_of_text {e d : Expr} (drawn : e.Drawn Token.Spelled) (drawn' : d.Drawn Token.Spelled)
    (finite : e.finite) (finite' : d.finite) (same : e.text = d.text) : e.Like Token.Moved d := by
  refine drawn.like_of_outline drawn' finite finite' ?_
  refine Outline.chars_injective (drawn.legible finite) (drawn'.legible finite') ?_
  rw [← e.text_eq_outline, ← d.text_eq_outline, same]

end Expr

namespace Stmt

def tag : Stmt → String
  | .expr _ => "expr"
  | .print .. => "print"
  | .declare .. => "let"
  | .block _ => "block"
  | .branch .. => "if"
  | .loop .. => "while"
  | .leave _ => "break"

theorem tag_of_outline {s t : Stmt} (same : s.outline = t.outline) : s.tag = t.tag := by
  have tagged (s : Stmt) : ∃ operands, s.outline = .form s.tag operands := by
    cases s with
    | declare name initial => cases initial <;> exact ⟨_, rfl⟩
    | _ => exact ⟨_, rfl⟩
  obtain ⟨_, left⟩ := tagged s
  obtain ⟨_, right⟩ := tagged t
  rw [left, right] at same
  exact (Outline.form.inj same).1

mutual

theorem like_of_outline : (s t : Stmt) → s.Drawn Token.Spelled → t.Drawn Token.Spelled → s.finite →
    t.finite → s.outline = t.outline → s.Like Token.Moved t
  | .expr e, t, .expr drawn, drawn', finite, finite', same => by
    have tag := tag_of_outline same
    cases drawn' with
    | expr other =>
      simp only [outline, Outline.form.injEq, List.cons.injEq, and_true, true_and] at same
      exact .expr (drawn.like_of_outline other finite finite' same)
    | _ => simp [Stmt.tag] at tag
  | .print keyword e, t, .print spelled kind drawn, drawn', finite, finite', same => by
    have tag := tag_of_outline same
    cases drawn' with
    | print spelled' kind' other =>
      simp only [outline, Outline.form.injEq, List.cons.injEq, and_true, true_and] at same
      have moved := spelled.moved_of_kind spelled' (by rw [kind]; rfl) (kind.trans kind'.symm)
      exact .print moved (drawn.like_of_outline other finite finite' same)
    | _ => simp [Stmt.tag] at tag
  | .declare name initial, t, .declare spelled kind drawn, drawn', finite, finite', same => by
    have tag := tag_of_outline same
    cases drawn' with
    | @declare name' initial' spelled' kind' other =>
      cases initial with
      | none =>
        cases initial' with
        | none =>
          simp only [outline, Outline.form.injEq, List.cons.injEq, Outline.word.injEq, and_true,
            true_and] at same
          exact .declareNil (spelled.moved spelled' same)
        | some d => simp [outline] at same
      | some e =>
        cases initial' with
        | none => simp [outline] at same
        | some d =>
          simp only [outline, Outline.form.injEq, List.cons.injEq, Outline.word.injEq, and_true,
            true_and] at same
          exact .declare (spelled.moved spelled' same.1)
            ((drawn e rfl).like_of_outline (other d rfl) finite finite' same.2)
    | _ => simp [Stmt.tag] at tag
  | .block body, t, .block each, drawn', finite, finite', same => by
    have tag := tag_of_outline same
    cases drawn' with
    | block each' =>
      exact .block (allLike_of_outlines body _ each each' finite finite' (Outline.form.inj same).2)
    | _ => simp [Stmt.tag] at tag
  | .branch condition consequent alternate, t, .branch test each others, drawn', finite, finite', same => by
    have tag := tag_of_outline same
    cases drawn' with
    | @branch condition' consequent' alternate' test' each' others' =>
      simp only [Stmt.finite, Bool.and_eq_true] at finite finite'
      simp only [outline, List.cons_append, List.nil_append, Outline.form.injEq, List.cons.injEq,
        true_and] at same
      obtain ⟨condition, chosen, rest⟩ := same
      have other : outlines alternate = outlines alternate' := by
        cases alternate <;> cases alternate' <;> simp_all
      exact .branch (test.like_of_outline test' finite.1.1 finite'.1.1 condition)
        (allLike_of_outlines consequent _ each each' finite.1.2 finite'.1.2 chosen)
        (allLike_of_outlines alternate _ others others' finite.2 finite'.2 other)
    | _ => simp [Stmt.tag] at tag
  | .loop condition body, t, .loop test drawn, drawn', finite, finite', same => by
    have tag := tag_of_outline same
    cases drawn' with
    | loop test' other =>
      simp only [outline, Outline.form.injEq, List.cons.injEq, and_true, true_and] at same
      obtain ⟨first, second⟩ := Bool.and_eq_true_iff.1 finite
      obtain ⟨first', second'⟩ := Bool.and_eq_true_iff.1 finite'
      exact .loop (test.like_of_outline test' first first' same.1)
        (like_of_outline body _ drawn other second second' same.2)
    | _ => simp [Stmt.tag] at tag
  | .leave keyword, t, .leave spelled kind, drawn', finite, finite', same => by
    have tag := tag_of_outline same
    cases drawn' with
    | leave spelled' kind' =>
      exact .leave (spelled.moved_of_kind spelled' (by rw [kind]; rfl) (kind.trans kind'.symm))
    | _ => simp [Stmt.tag] at tag

theorem allLike_of_outlines : (xs ys : List Stmt) → (∀ s ∈ xs, s.Drawn Token.Spelled) →
    (∀ s ∈ ys, s.Drawn Token.Spelled) → allFinite xs → allFinite ys → outlines xs = outlines ys →
    AllLike Token.Moved xs ys
  | [], [], _, _, _, _, _ => .nil
  | [], _ :: _, _, _, _, _, same => by simp [outlines] at same
  | _ :: _, [], _, _, _, _, same => by simp [outlines] at same
  | s :: xs, t :: ys, drawn, drawn', finite, finite', same => by
    obtain ⟨first, second⟩ := Bool.and_eq_true_iff.1 finite
    obtain ⟨first', second'⟩ := Bool.and_eq_true_iff.1 finite'
    obtain ⟨head, tail⟩ := List.forall_mem_cons.1 drawn
    obtain ⟨head', tail'⟩ := List.forall_mem_cons.1 drawn'
    obtain ⟨one, others⟩ := List.cons.inj same
    exact .cons (like_of_outline s t head head' first first' one)
      (allLike_of_outlines xs ys tail tail' second second' others)

end

theorem Drawn.like_of_text {s t : Stmt} (drawn : s.Drawn Token.Spelled) (drawn' : t.Drawn Token.Spelled)
    (finite : s.finite) (finite' : t.finite) (same : s.text = t.text) : s.Like Token.Moved t := by
  refine s.like_of_outline t drawn drawn' finite finite' ?_
  refine Outline.chars_injective (s.legible drawn finite) (t.legible drawn' finite') ?_
  rw [← s.text_eq_outline, ← t.text_eq_outline, same]

end Stmt

namespace Parsed

def statements : Parsed → List Stmt
  | .program entries => entries.filterMap id
  | .expression _ => []

def expression? : Parsed → Option Expr
  | .program _ => none
  | .expression e => some e

theorem Drawn.trees {T : Token → Prop} {parsed : Parsed} (drawn : parsed.Drawn T) :
    (∀ s ∈ parsed.statements, s.Drawn T) ∧ ∀ e ∈ parsed.expression?, e.Drawn T := by
  cases parsed with
  | program entries => exact ⟨drawn, nofun⟩
  | expression e => exact ⟨nofun, fun _ member => Option.some.inj member ▸ drawn⟩

end Parsed

section Readings

variable {T : Token → Prop} {tokens : List Token} (all : ∀ t ∈ Reading.content tokens, T t)
include all

theorem parse_parsed_drawn : (parse tokens).parsed.Drawn T := by
  have step := Parser.draws_program T (Reading.content tokens) all
  change (Parsed.program ((Parser.program (Reading.content tokens)).value.getD [])).Drawn T
  cases read : (Parser.program (Reading.content tokens)).value with
  | none => exact nofun
  | some entries => exact step.value entries read

theorem parseLine_parsed_drawn : (parseLine tokens).parsed.Drawn T := by
  rw [parseLine]
  split
  · rename_i e complaints whole
    have step := (Parser.draws_within T (nestingLimit - 1)).expression (Reading.content tokens) all
    have read := wholeExpression?_eq_some whole
    rw [Parser.bareExpression] at read
    exact step.value e (congrArg Step.value read)
  · exact parse_parsed_drawn all

end Readings

theorem Session.Text.parsed_spelled (text : Session.Text) : text.reading.parsed.Drawn Token.Spelled := by
  have all (source : String) : ∀ t ∈ Reading.content (scan source).tokens, t.Spelled := by
    rw [scan, Scan.content_ofChars]
    exact Scan.words_spelled source.toList
  cases text with
  | program source => exact parse_parsed_drawn (all source)
  | line source => exact parseLine_parsed_drawn (all source)

/-- Two statements, or two lone expressions, that were read of any two texts and in which all numbers are
finite: if they are written alike, they are the same tree but for the places of its tokens. -/
theorem texts_tell_trees (x y : Session.Text) :
    (∀ s ∈ x.reading.parsed.statements, ∀ t ∈ y.reading.parsed.statements,
      s.finite → t.finite → s.text = t.text → s.Like Token.Moved t) ∧
    ∀ e ∈ x.reading.parsed.expression?, ∀ d ∈ y.reading.parsed.expression?,
      e.finite → d.finite → e.text = d.text → e.Like Token.Moved d := by
  obtain ⟨statements, expression⟩ := x.parsed_spelled.trees
  obtain ⟨statements', expression'⟩ := y.parsed_spelled.trees
  exact ⟨fun s member t member' => (statements s member).like_of_text (statements' t member'),
    fun e member d member' => (expression e member).like_of_text (expression' d member')⟩

theorem texts_tell_samples :
    (∃ s ∈ (Session.Text.program "let a = \"b (c\" + 1.50;").reading.parsed.statements,
      ∃ t ∈ (Session.Text.line "let a=\"b (c\"+1.5;").reading.parsed.statements,
        s.finite ∧ t.finite ∧ s.text = "(let a (+ \"b (c\" 1.5))" ∧ t.text = s.text ∧
          s.Like Token.Moved t) ∧
    ∃ e ∈ (Session.Text.line "a -= - b ? 1 : nil").reading.parsed.expression?,
      ∃ d ∈ (Session.Text.line "a-=-b\n?1.0:nil").reading.parsed.expression?,
        e.finite ∧ d.finite ∧ e.text = "(= a (- a (? (- b) 1 nil)))" ∧ d.text = e.text ∧
          e.Like Token.Moved d := by
  constructor
  · have left : (Session.Text.program "let a = \"b (c\" + 1.50;").reading.parsed.statements.head?.map
        (fun s => (s.finite, s.text)) = some (true, "(let a (+ \"b (c\" 1.5))") := by decide +kernel
    have right : (Session.Text.line "let a=\"b (c\"+1.5;").reading.parsed.statements.head?.map
        (fun s => (s.finite, s.text)) = some (true, "(let a (+ \"b (c\" 1.5))") := by decide +kernel
    obtain ⟨s, head, shown⟩ := Option.map_eq_some_iff.1 left
    obtain ⟨t, head', shown'⟩ := Option.map_eq_some_iff.1 right
    obtain ⟨finite, text⟩ := Prod.mk.inj shown
    obtain ⟨finite', text'⟩ := Prod.mk.inj shown'
    have member := List.mem_of_mem_head? head
    have member' := List.mem_of_mem_head? head'
    exact ⟨s, member, t, member', finite, finite', text, text'.trans text.symm,
      (texts_tell_trees _ _).1 s member t member' finite finite' (text.trans text'.symm)⟩
  · have left : (Session.Text.line "a -= - b ? 1 : nil").reading.parsed.expression?.map
        (fun e => (e.finite, e.text)) = some (true, "(= a (- a (? (- b) 1 nil)))") := by decide +kernel
    have right : (Session.Text.line "a-=-b\n?1.0:nil").reading.parsed.expression?.map
        (fun e => (e.finite, e.text)) = some (true, "(= a (- a (? (- b) 1 nil)))") := by decide +kernel
    obtain ⟨e, member, shown⟩ := Option.map_eq_some_iff.1 left
    obtain ⟨d, member', shown'⟩ := Option.map_eq_some_iff.1 right
    obtain ⟨finite, text⟩ := Prod.mk.inj shown
    obtain ⟨finite', text'⟩ := Prod.mk.inj shown'
    exact ⟨e, member, d, member', finite, finite', text, text'.trans text.symm,
      (texts_tell_trees _ _).2 e member d member' finite finite' (text.trans text'.symm)⟩

end Scriptlet
