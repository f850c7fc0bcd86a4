import Scriptlet.Proofs.Layout
import Scriptlet.Proofs.Numerals
import Scriptlet.Proofs.Origins
import Scriptlet.Proofs.Outlines

/-! Trees that were read have legible outlines. Names, operators and finite numbers are words, a string
that was read holds no quote, and the operator of a compound assignment is spelled like any other. -/
namespace Scriptlet

open Outline

namespace Value

def finite : Value → Bool
  | .number x => x.isFinite
  | _ => true

end Value

namespace Expr

def finite : Expr → Bool
  | .literal v => v.finite
  | .var _ => true
  | .assign _ value => value.finite
  | .group inner => inner.finite
  | .unary _ right => right.finite
  | .binary left _ right => left.finite && right.finite
  | .logical left _ right => left.finite && right.finite
  | .choice condition consequent alternate =>
    condition.finite && consequent.finite && alternate.finite
  | .step operand _ => operand.finite

end Expr

namespace Stmt

mutual

def finite : Stmt → Bool
  | .expr e => e.finite
  | .print _ e => e.finite
  | .declare _ initial => initial.all Expr.finite
  | .block body => allFinite body
  | .branch condition consequent alternate =>
    condition.finite && allFinite consequent && allFinite alternate
  | .loop condition body => condition.finite && body.finite
  | .leave _ => true

def allFinite : List Stmt → Bool
  | [] => true
  | s :: rest => s.finite && allFinite rest

end

end Stmt

namespace Kind

/-- The operators and reserved words, each with its one spelling. -/
def fixed : List (String × Kind) :=
  Lexical.operators ++ reserved

def isFixed (k : Kind) : Bool :=
  k ∉ [.name, .number, .string, .finish]

def isOperator (k : Kind) : Bool :=
  k.isSign || k.isBinary || k.isLogical || k.isStep

theorem isFixed_of_isOperator {k : Kind} (operator : k.isOperator) :
    k.isFixed ∧ k ∉ [.leftParen, .rightParen, .string] := by
  revert operator
  cases k <;> decide

end Kind

namespace Lexical

theorem isPlain_of_isDigit {c : Char} (digit : c.isDigit) : isPlain c := by
  by_contra other
  simp only [isPlain, decide_eq_true_eq, not_not, List.mem_cons, List.not_mem_nil, or_false] at other
  rcases other with rfl | rfl | rfl | rfl <;> exact absurd digit (by decide)

theorem isPlain_of_letter {c : Char} (letter : Letter c) : isPlain c := by
  rw [letter_iff] at letter
  by_contra other
  simp only [isPlain, decide_eq_true_eq, not_not, List.mem_cons, List.not_mem_nil, or_false] at other
  rcases other with rfl | rfl | rfl | rfl <;> exact absurd letter (by decide)

theorem isNameStart_of_isDigit {c : Char} (digit : c.isDigit) : Piece.isNameStart c = false := by
  by_contra start
  exact absurd digit (by simp [not_digit_of_start (by simpa using start)])

theorem Word.isPlain {text : List Char} (word : Word text) : ∀ c ∈ text, isPlain c :=
  fun c member => (word.2.2 c member).elim isPlain_of_letter isPlain_of_isDigit

end Lexical

namespace Token

theorem Spelled.isWord {t : Token} (spelled : t.Spelled)
    (plain : t.kind ∉ [.leftParen, .rightParen, .string]) : IsWord t.lexeme := by
  have marks : ∀ entry ∈ Lexical.operators, entry.2 ∉ [.leftParen, .rightParen, .string] →
      entry.1.toList.all isPlain = true := by decide +kernel
  obtain ⟨text, rest, spelling, lexeme⟩ := spelled
  rw [IsWord, spelling, String.toList_ofList, Ne, String.ofList_eq_empty_iff]
  refine ⟨lexeme.ne_nil, ?_⟩
  generalize t.kind = kind, t.literal = literal at lexeme plain
  cases lexeme with
  | operator member => simpa using marks _ member plain
  | reserved member => exact (Lexical.word_of_reserved member).isPlain
  | name word _ => exact word.isPlain
  | whole digits => exact fun c member => Lexical.isPlain_of_isDigit (digits.2 c member)
  | decimal digits decimals =>
    intro c member
    obtain member | rfl | member := by simpa using member
    · exact Lexical.isPlain_of_isDigit (digits.2 c member)
    · decide
    · exact Lexical.isPlain_of_isDigit (decimals.2 c member)
  | string => simp at plain

theorem Drawn.spelled {t : Token} (drawn : t.Drawn Spelled) : t.Spelled := by
  cases drawn with
  | plain spelled => exact spelled
  | compound _ made =>
    have known : (t.lexeme, t.kind) ∈ Lexical.operators ∧ t.literal = none := by
      unfold Expr.compound? at made
      split at made
      case h_6 => nomatch made
      all_goals
        obtain rfl := Option.some.inj made
        simp [Lexical.operators]
    refine ⟨t.lexeme.toList, [], String.ofList_toList.symm, ?_⟩
    rw [known.2]
    exact .operator (by rw [String.ofList_toList]; exact known.1)

theorem Spelled.unquoted {t : Token} (spelled : t.Spelled) {s : String}
    (literal : t.literal = some (.string s)) : '"' ∉ s.toList := by
  obtain ⟨text, rest, -, lexeme⟩ := spelled
  rw [literal] at lexeme
  generalize t.kind = kind at lexeme
  generalize held : some (Value.string s) = value at lexeme
  cases lexeme with
  | operator => nomatch held
  | reserved =>
    unfold Piece.literal? at held
    split at held <;> nomatch held
  | name => nomatch held
  | whole => nomatch held
  | decimal => nomatch held
  | string inside =>
    obtain rfl := Value.string.inj (Option.some.inj held)
    rwa [String.toList_ofList]

end Token

namespace Value

/-- Finite numbers are written with other characters than names and constants. -/
theorem number_form {x : Float} (finite : x.isFinite) :
    IsWord (Number.text "inf" x) ∧ ∀ c ∈ (Number.text "inf" x).toList, Piece.isNameStart c = false := by
  obtain ⟨sign, digits, written, some, form, -⟩ := Number.text_of_finite finite "inf"
  have all : ∀ c ∈ (Number.text "inf" x).toList, c = '-' ∨ c.isDigit ∨ c = '.' := by
    rw [written, String.toList_append, String.toList_ofList]
    refine List.forall_mem_append.2 ⟨?_, fun c member => .inr (form c member)⟩
    cases sign <;> simp [Number.signText]
  refine ⟨⟨?_, fun c member => ?_⟩, fun c member => ?_⟩
  · simp [written, some]
  · obtain rfl | digit | rfl := all c member
    · decide
    · exact Lexical.isPlain_of_isDigit digit
    · decide
  · obtain rfl | digit | rfl := all c member
    · decide
    · exact Lexical.isNameStart_of_isDigit digit
    · decide

theorem constant_form {v : Value} (constant : v ∈ constants) :
    v.outline = .word v.listing ∧ IsWord v.listing ∧ ∃ c ∈ v.listing.toList, Piece.isNameStart c := by
  simp only [constants, List.mem_cons, List.not_mem_nil, or_false] at constant
  rcases constant with rfl | rfl | rfl <;>
    refine ⟨rfl, ⟨by simp [listing, write], by simp [listing, write, isPlain]⟩, ?_⟩
  · exact ⟨'n', by simp [listing, write], rfl⟩
  · exact ⟨'t', by simp [listing, write], rfl⟩
  · exact ⟨'f', by simp [listing, write], rfl⟩

theorem mem_constants (b : Bool) : bool b ∈ constants := by
  cases b <;> simp [constants]

theorem legible {v : Value} (drawn : v.Drawn Token.Spelled) (finite : v.finite) : v.outline.Legible := by
  obtain constant | ⟨t, spelled, literal⟩ := drawn
  · obtain ⟨written, word, -⟩ := constant_form constant
    exact written ▸ .word word
  · cases v with
    | number x => exact .word (number_form finite).1
    | string s => exact .quoted (spelled.unquoted literal)
    | nil => exact .word (constant_form (by simp [constants])).2.1
    | bool b => exact .word (constant_form (mem_constants b)).2.1

end Value

namespace Expr

theorem Drawn.legible {e : Expr} (drawn : e.Drawn Token.Spelled) (finite : e.finite) :
    e.outline.Legible := by
  have head {t : Token} (spelled : t.Spelled) (operator : t.kind.isOperator) :=
    spelled.isWord (Kind.isFixed_of_isOperator operator).2
  have tag : IsWord "=" ∧ IsWord "group" ∧ IsWord "?" := by simp [IsWord, isPlain]
  induction drawn with
  | literal value => exact Value.legible value finite
  | var spelled name => exact .word (spelled.isWord (by simp [name]))
  | assign spelled name _ ih =>
    exact .form tag.1 (by simp [ih finite, Legible.word (spelled.isWord (by simp [name]))])
  | group _ ih => exact .form tag.2.1 (by simp [ih finite])
  | unary spelled kind _ ih =>
    exact .form (head spelled (by simp [Kind.isOperator, kind])) (by simp [ih finite])
  | binary drawn kind _ _ ih ih' =>
    obtain ⟨finite, finite'⟩ := Bool.and_eq_true_iff.1 finite
    exact .form (head drawn.spelled (by simp [Kind.isOperator, kind])) (by simp [ih finite, ih' finite'])
  | logical spelled kind _ _ ih ih' =>
    obtain ⟨finite, finite'⟩ := Bool.and_eq_true_iff.1 finite
    exact .form (head spelled (by simp [Kind.isOperator, kind])) (by simp [ih finite, ih' finite'])
  | choice _ _ _ ih ih' ih'' =>
    obtain ⟨finite, third⟩ := Bool.and_eq_true_iff.1 finite
    obtain ⟨first, second⟩ := Bool.and_eq_true_iff.1 finite
    exact .form tag.2.2 (by simp [ih first, ih' second, ih'' third])
  | step spelled kind _ ih =>
    exact .form (head spelled (by simp [Kind.isOperator, kind])) (by simp [ih finite])

end Expr

namespace Stmt

theorem tags : ∀ tag ∈ ["expr", "print", "let", "block", "if", "then", "else", "while", "break"],
    IsWord tag := by
  simp [IsWord, isPlain]

mutual

theorem legible : (s : Stmt) → s.Drawn Token.Spelled → s.finite → s.outline.Legible
  | .expr e, .expr drawn, finite => .form (tags _ (by simp)) (by simp [drawn.legible finite])
  | .print _ e, .print _ _ drawn, finite => .form (tags _ (by simp)) (by simp [drawn.legible finite])
  | .declare name none, .declare spelled kind _, _ =>
    .form (tags _ (by simp)) (by simp [Legible.word (spelled.isWord (by simp [kind]))])
  | .declare name (some e), .declare spelled kind initial, finite =>
    .form (tags _ (by simp)) (by
      simp [Legible.word (spelled.isWord (by simp [kind])), (initial e rfl).legible finite])
  | .block body, .block each, finite => .form (tags _ (by simp)) (legibleAll body each finite)
  | .branch condition consequent alternate, .branch test each each', finite => by
    simp only [Stmt.finite, Bool.and_eq_true] at finite
    have chosen : (Outline.form "then" (outlines consequent)).Legible :=
      .form (tags _ (by simp)) (legibleAll consequent each finite.1.2)
    have other : (Outline.form "else" (outlines alternate)).Legible :=
      .form (tags _ (by simp)) (legibleAll alternate each' finite.2)
    refine .form (tags _ (by simp)) ?_
    split <;> simp [test.legible finite.1.1, chosen, other]
  | .loop condition body, .loop test drawn, finite => by
    obtain ⟨first, second⟩ := Bool.and_eq_true_iff.1 finite
    exact .form (tags _ (by simp)) (by simp [test.legible first, legible body drawn second])
  | .leave _, _, _ => .form (tags _ (by simp)) (by simp)

theorem legibleAll : (body : List Stmt) → (∀ s ∈ body, s.Drawn Token.Spelled) → allFinite body →
    ∀ o ∈ outlines body, o.Legible
  | [], _, _ => by simp [outlines]
  | s :: rest, drawn, finite => by
    obtain ⟨first, second⟩ := Bool.and_eq_true_iff.1 finite
    obtain ⟨head, tail⟩ := List.forall_mem_cons.1 drawn
    exact List.forall_mem_cons.2 ⟨legible s head first, legibleAll rest tail second⟩

end

end Stmt

end Scriptlet
