import Mathlib.Data.List.Induction
import Scriptlet.Proofs.Scans

/-! Places told from the text before them. A place is found by counting newlines and what stands after
the last one; places further on in a text are later, so two tokens of a text never share one. -/
namespace Scriptlet

namespace Position

/-- The place behind a text: its newlines give the line, and what stands after the last of them the
column. -/
def behind (before : List Char) : Position :=
  ⟨1 + before.count '\n', 1 + (before.reverse.takeWhile (· != '\n')).length⟩

theorem behind_concat (before : List Char) (c : Char) :
    behind (before ++ [c]) = (behind before).next c := by
  by_cases newline : c = '\n'
  · simp [behind, next, newline, Nat.add_assoc]
  · simp [behind, next, newline, Nat.add_assoc]

theorem after_start (before : List Char) : start.after before = behind before := by
  induction before using List.reverseRecOn with
  | nil => rfl
  | append_singleton before c ih => rw [after_append, ih, behind_concat, after_cons, after_nil]

theorem after_behind (before text : List Char) :
    (behind before).after text = behind (before ++ text) := by
  rw [← after_start, ← after_start, after_append]

def Earlier (p q : Position) : Prop :=
  p.line < q.line ∨ p.line = q.line ∧ p.column < q.column

theorem Earlier.trans {p q r : Position} (first : p.Earlier q) (second : q.Earlier r) :
    p.Earlier r := by
  unfold Earlier at *
  omega

theorem Earlier.ne {p q : Position} (earlier : p.Earlier q) : p ≠ q := by
  rintro rfl
  unfold Earlier at earlier
  omega

theorem earlier_next (p : Position) (c : Char) : p.Earlier (p.next c) := by
  unfold Earlier next
  split
  · exact .inl (Nat.lt_succ_self _)
  · exact .inr ⟨rfl, Nat.lt_succ_self _⟩

theorem earlier_after (p : Position) {text : List Char} (some : text ≠ []) :
    p.Earlier (p.after text) := by
  induction text generalizing p with
  | nil => exact absurd rfl some
  | cons c text ih =>
    rw [after_cons]
    by_cases last : text = []
    · rw [last]
      exact earlier_next p c
    · exact (earlier_next p c).trans (ih _ last)

end Position

namespace Scan

theorem placed_later {p q : Position} {pieces : List Piece} (earlier : p.Earlier q)
    (some : ∀ piece ∈ pieces, piece.text ≠ []) :
    ∀ place ∈ placed q pieces, p.Earlier place.1 := by
  induction pieces generalizing q with
  | nil => simp [placed]
  | cons piece rest ih =>
    intro place member
    obtain rfl | further := List.mem_cons.1 member
    · exact earlier
    · have next := q.earlier_after (some piece List.mem_cons_self)
      exact ih (earlier.trans next) (fun other within => some other (List.mem_cons_of_mem _ within))
        place further

theorem placed_pairwise (p : Position) {pieces : List Piece}
    (some : ∀ piece ∈ pieces, piece.text ≠ []) :
    (placed p pieces).Pairwise fun a b => a.1.Earlier b.1 := by
  induction pieces generalizing p with
  | nil => exact .nil
  | cons piece rest ih =>
    have others : ∀ other ∈ rest, other.text ≠ [] :=
      fun other within => some other (List.mem_cons_of_mem _ within)
    exact .cons (placed_later (p.earlier_after (some piece List.mem_cons_self)) others) (ih _ others)

theorem pos_of_token? {place : Position × Piece} {t : Token} (token : token? place = some t) :
    t.pos = place.1 := by
  obtain ⟨p, text, form⟩ := place
  cases form with
  | token kind literal =>
    obtain rfl := Option.some.inj token
    rfl
  | _ => simp [token?] at token

/-- No two tokens of a text stand at one place. -/
theorem words_nodup (source : List Char) : ((words source).map Token.pos).Nodup := by
  have nonempty : ∀ piece ∈ Piece.split source, piece.text ≠ [] := by
    intro piece member
    obtain ⟨c, cs, rfl⟩ := Piece.exists_first member
    exact Piece.first_ne_nil c cs
  rw [List.nodup_iff_pairwise_ne, List.pairwise_map, words, List.pairwise_filterMap]
  refine (placed_pairwise .start nonempty).imp fun earlier t first u second => ?_
  rw [pos_of_token? first, pos_of_token? second]
  exact earlier.ne

end Scan

end Scriptlet
