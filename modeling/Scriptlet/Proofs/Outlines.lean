import Scriptlet.Stmt.Basic
import Mathlib.Data.List.TakeWhile

/-! Outlines: texts in full parentheses, as trees of words. What separates the words is no part of them
and a quoted word holds no quote, so a text is the outline of at most one tree, even if more text
follows it. The texts of expressions and statements are such outlines. -/
namespace Scriptlet

inductive Outline where
  | word (text : String)
  | quoted (content : String)
  | form (head : String) (operands : List Outline)

namespace Outline

mutual

def chars : Outline → List Char
  | .word text => text.toList
  | .quoted content => '"' :: content.toList ++ ['"']
  | .form head operands => '(' :: head.toList ++ spaced operands ++ [')']

def spaced : List Outline → List Char
  | [] => []
  | o :: rest => ' ' :: o.chars ++ spaced rest

end

def isPlain (c : Char) : Bool :=
  c ∉ [' ', '(', ')', '"']

def IsWord (text : String) : Prop :=
  text ≠ "" ∧ ∀ c ∈ text.toList, isPlain c

/-- An outline whose words can be told from what is around them. -/
inductive Legible : Outline → Prop
  | word {text : String} : IsWord text → Legible (.word text)
  | quoted {content : String} : '"' ∉ content.toList → Legible (.quoted content)
  | form {head : String} {operands : List Outline} : IsWord head → (∀ o ∈ operands, Legible o) →
      Legible (.form head operands)

def Ended (text : List Char) : Prop :=
  ∀ c ∈ text.head?, isPlain c = false

theorem stretch_unique {p : Char → Bool} {w w' rest rest' : List Char} (all : ∀ c ∈ w, p c)
    (all' : ∀ c ∈ w', p c) (ended : ∀ c ∈ rest.head?, p c = false)
    (ended' : ∀ c ∈ rest'.head?, p c = false) (same : w ++ rest = w' ++ rest') :
    w = w' ∧ rest = rest' := by
  have taken {w rest : List Char} (all : ∀ c ∈ w, p c) (ended : ∀ c ∈ rest.head?, p c = false) :
      (w ++ rest).takeWhile p = w := by
    rw [List.takeWhile_append_of_pos all]
    cases rest with
    | nil => simp
    | cons c rest => simp [ended c rfl]
  have start : w = w' := by
    rw [← taken all ended, ← taken all' ended', same]
  subst start
  exact ⟨rfl, List.append_cancel_left same⟩

theorem word_unique {w w' : String} {rest rest' : List Char} (word : IsWord w) (word' : IsWord w')
    (ended : Ended rest) (ended' : Ended rest') (same : w.toList ++ rest = w'.toList ++ rest') :
    w = w' ∧ rest = rest' := by
  obtain ⟨start, rest⟩ := stretch_unique word.2 word'.2 ended ended' same
  exact ⟨String.toList_inj.1 start, rest⟩

theorem quoted_unique {s s' : String} {rest rest' : List Char} (inside : '"' ∉ s.toList)
    (inside' : '"' ∉ s'.toList) (same : s.toList ++ '"' :: rest = s'.toList ++ '"' :: rest') :
    s = s' ∧ rest = rest' := by
  have other {s : String} (inside : '"' ∉ s.toList) : ∀ c ∈ s.toList, (c != '"') = true :=
    fun c member => by simpa using ne_of_mem_of_not_mem member inside
  obtain ⟨start, rest⟩ := stretch_unique (other inside) (other inside') (by simp) (by simp) same
  exact ⟨String.toList_inj.1 start, (List.cons.inj rest).2⟩

theorem spaced_ended (operands : List Outline) (rest : List Char) :
    Ended (spaced operands ++ ')' :: rest) := by
  cases operands <;> simp [Ended, spaced, isPlain]

def opening? : Outline → Option Char
  | .word _ => none
  | .quoted _ => some '"'
  | .form _ _ => some '('

theorem head_chars {o : Outline} (legible : o.Legible) (rest : List Char) :
    (o.chars ++ rest).head?.filter (fun c => !isPlain c) = o.opening? := by
  cases legible with
  | @word text word =>
    obtain ⟨c, cs, shape⟩ := List.exists_cons_of_ne_nil (mt String.toList_eq_nil_iff.1 word.1)
    have plain : isPlain c := word.2 c (by simp [shape])
    simp [chars, shape, plain, opening?]
  | quoted => simp [chars, isPlain, opening?]
  | form => simp [chars, isPlain, opening?]

/-- Operands are read one by one if each can be read. -/
theorem spaced_unique {os ps : List Outline} {rest rest' : List Char}
    (each : ∀ o ∈ os, ∀ p rest rest', p.Legible → Ended rest → Ended rest' →
      o.chars ++ rest = p.chars ++ rest' → o = p ∧ rest = rest')
    (legible : ∀ p ∈ ps, p.Legible)
    (same : spaced os ++ ')' :: rest = spaced ps ++ ')' :: rest') : os = ps ∧ rest = rest' := by
  induction os generalizing ps with
  | nil =>
    cases ps with
    | nil => exact ⟨rfl, (List.cons.inj same).2⟩
    | cons p ps => simp [spaced] at same
  | cons o os ih =>
    cases ps with
    | nil => simp [spaced] at same
    | cons p ps =>
      obtain ⟨first, others⟩ := List.forall_mem_cons.1 each
      obtain ⟨legible, legible'⟩ := List.forall_mem_cons.1 legible
      simp only [spaced, List.cons_append, List.append_assoc, List.cons.injEq, true_and] at same
      obtain ⟨rfl, further⟩ := first p _ _ legible (spaced_ended os rest) (spaced_ended ps rest') same
      obtain ⟨rfl, rfl⟩ := ih others legible' further
      exact ⟨rfl, rfl⟩

/-- A text that begins with an outline begins with no other one. -/
theorem chars_append_unique {o : Outline} (legible : o.Legible) : ∀ p rest rest', p.Legible →
    Ended rest → Ended rest' → o.chars ++ rest = p.chars ++ rest' → o = p ∧ rest = rest' := by
  have opened {o p : Outline} {rest rest' : List Char} (legible : o.Legible) (legible' : p.Legible)
      (same : o.chars ++ rest = p.chars ++ rest') : o.opening? = p.opening? := by
    rw [← head_chars legible rest, same, head_chars legible']
  induction legible with
  | word word =>
    intro p rest rest' other ended ended' same
    have opening := opened (.word word) other same
    cases other with
    | word word' =>
      obtain ⟨rfl, rfl⟩ := word_unique word word' ended ended' same
      exact ⟨rfl, rfl⟩
    | _ => simp [opening?] at opening
  | quoted inside =>
    intro p rest rest' other ended ended' same
    have opening := opened (.quoted inside) other same
    cases other with
    | quoted inside' =>
      simp only [chars, List.cons_append, List.append_assoc, List.cons.injEq, true_and] at same
      obtain ⟨rfl, rfl⟩ := quoted_unique inside inside' same
      exact ⟨rfl, rfl⟩
    | _ => simp [opening?] at opening
  | form word each ih =>
    intro p rest rest' other ended ended' same
    have opening := opened (.form word each) other same
    cases other with
    | form word' each' =>
      simp only [chars, List.cons_append, List.append_assoc, List.nil_append, List.cons.injEq,
        true_and] at same
      obtain ⟨rfl, operands⟩ := word_unique word word' (spaced_ended _ _) (spaced_ended _ _) same
      obtain ⟨rfl, rfl⟩ := spaced_unique ih each' operands
      exact ⟨rfl, rfl⟩
    | _ => simp [opening?] at opening

theorem chars_injective {o p : Outline} (legible : o.Legible) (legible' : p.Legible)
    (same : o.chars = p.chars) : o = p :=
  (chars_append_unique legible p [] [] legible' (by simp [Ended]) (by simp [Ended]) (by simp [same])).1

end Outline

namespace Value

def outline : Value → Outline
  | .string s => .quoted s
  | v => .word v.listing

end Value

namespace Expr

def outline : Expr → Outline
  | .literal v => v.outline
  | .var name => .word name.lexeme
  | .assign name value => .form "=" [.word name.lexeme, value.outline]
  | .group inner => .form "group" [inner.outline]
  | .unary operator right => .form operator.lexeme [right.outline]
  | .binary left operator right => .form operator.lexeme [left.outline, right.outline]
  | .logical left operator right => .form operator.lexeme [left.outline, right.outline]
  | .choice condition consequent alternate =>
    .form "?" [condition.outline, consequent.outline, alternate.outline]
  | .step operand operator => .form operator.lexeme [operand.outline]

theorem form_eq {head : String} {operands : List String} {outlines : List Outline}
    (same : operands.map String.toList = outlines.map Outline.chars) :
    (form head operands).toList = (Outline.form head outlines).chars := by
  have spaced : operands.flatMap (fun text => ' ' :: text.toList) = Outline.spaced outlines := by
    induction operands generalizing outlines with
    | nil =>
      obtain rfl := List.map_eq_nil_iff.1 same.symm
      rfl
    | cons text operands ih =>
      obtain ⟨o, outlines, rfl, first, others⟩ := List.map_eq_cons_iff.1 same.symm
      rw [List.flatMap_cons, ih others.symm, Outline.spaced, first]
  simp [form, Outline.chars, String.toList_join, List.flatMap_map, ← spaced]

theorem text_eq_outline (e : Expr) : e.text.toList = e.outline.chars := by
  induction e with
  | literal v =>
    cases v with
    | string s => simp [text, literalText, outline, Value.outline, Outline.chars]
    | _ => rfl
  | var name => rfl
  | assign name value ih => exact form_eq (by simp [ih, Outline.chars])
  | group inner ih => exact form_eq (by simp [ih])
  | unary operator right ih => exact form_eq (by simp [ih])
  | binary left operator right ih ih' => exact form_eq (by simp [ih, ih'])
  | logical left operator right ih ih' => exact form_eq (by simp [ih, ih'])
  | choice condition consequent alternate ih ih' ih'' => exact form_eq (by simp [ih, ih', ih''])
  | step operand operator ih => exact form_eq (by simp [ih])

end Expr

namespace Stmt

mutual

def outline : Stmt → Outline
  | .expr e => .form "expr" [e.outline]
  | .print _ e => .form "print" [e.outline]
  | .declare name none => .form "let" [.word name.lexeme]
  | .declare name (some e) => .form "let" [.word name.lexeme, e.outline]
  | .block body => .form "block" (outlines body)
  | .branch condition consequent alternate =>
    .form "if" ([condition.outline, .form "then" (outlines consequent)] ++
      if alternate.isEmpty then [] else [.form "else" (outlines alternate)])
  | .loop condition body => .form "while" [condition.outline, body.outline]
  | .leave _ => .form "break" []

def outlines : List Stmt → List Outline
  | [] => []
  | s :: rest => s.outline :: outlines rest

end

mutual

theorem text_eq_outline : (s : Stmt) → s.text.toList = s.outline.chars
  | .expr e => Expr.form_eq (by simp [e.text_eq_outline])
  | .print _ e => Expr.form_eq (by simp [e.text_eq_outline])
  | .declare name none => Expr.form_eq (by simp [Outline.chars])
  | .declare name (some e) => Expr.form_eq (by simp [e.text_eq_outline, Outline.chars])
  | .block body => Expr.form_eq (texts_eq_outlines body)
  | .branch condition consequent alternate => by
    have chosen : (Expr.form "then" (texts consequent)).toList =
        (Outline.form "then" (outlines consequent)).chars :=
      Expr.form_eq (texts_eq_outlines consequent)
    have other : (Expr.form "else" (texts alternate)).toList =
        (Outline.form "else" (outlines alternate)).chars :=
      Expr.form_eq (texts_eq_outlines alternate)
    refine Expr.form_eq ?_
    cases alternate with
    | nil => simp [condition.text_eq_outline, chosen, texts, elseText]
    | cons s rest =>
      have written : elseText (texts (s :: rest)) = [Expr.form "else" (texts (s :: rest))] := rfl
      simp [condition.text_eq_outline, chosen, written, other]
  | .loop condition body => Expr.form_eq (by simp [condition.text_eq_outline, text_eq_outline body])
  | .leave _ => Expr.form_eq rfl

theorem texts_eq_outlines : (body : List Stmt) →
    (texts body).map String.toList = (outlines body).map Outline.chars
  | [] => rfl
  | s :: rest => by simp [texts, outlines, text_eq_outline s, texts_eq_outlines rest]

end

end Stmt

end Scriptlet
