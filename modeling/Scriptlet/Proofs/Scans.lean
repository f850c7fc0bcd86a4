import Scriptlet.Program
import Scriptlet.Proofs.Pieces

/-! Scanning on both sides of a newline. If the text before it has no report and leaves no comment
open, its tokens stay as they are, and the text after it is scanned as on its own, only further
down. -/
namespace Scriptlet

def Position.down (k : Nat) (p : Position) : Position :=
  ⟨p.line + k, p.column⟩

def Token.down (k : Nat) (t : Token) : Token :=
  { t with pos := t.pos.down k }

def Report.down (k : Nat) (r : Report) : Report :=
  { r with pos := r.pos.down k }

namespace Position

theorem after_down (k : Nat) (p : Position) (text : List Char) :
    (p.down k).after text = (p.after text).down k := by
  induction text generalizing p with
  | nil => rfl
  | cons c text ih =>
    have next : (p.down k).next c = (p.next c).down k := by
      simp only [Position.next, down]
      split
      · simp only [Nat.add_right_comm]
      · rfl
    rw [after_cons, after_cons, next, ih]

theorem line_after (p : Position) (text : List Char) :
    (p.after text).line = p.line + text.count '\n' := by
  induction text generalizing p with
  | nil => rfl
  | cons c text ih =>
    rw [after_cons, ih, Position.next]
    by_cases newline : c = '\n'
    · simp [newline]
      omega
    · simp [newline]

theorem next_after_start (text : List Char) :
    (start.after text).next '\n' = start.down (1 + text.count '\n') := by
  rw [Position.next, if_pos rfl, line_after]
  simp only [down, start, Nat.add_comm]

end Position

namespace Scan

theorem placed_append (p : Position) (xs ys : List Piece) :
    placed p (xs ++ ys) = placed p xs ++ placed (p.after (xs.flatMap (·.text))) ys := by
  induction xs generalizing p with
  | nil => rfl
  | cons x xs ih => simp [placed, ih]

theorem placed_down (k : Nat) (p : Position) (pieces : List Piece) :
    placed (p.down k) pieces = (placed p pieces).map fun (q, piece) => (q.down k, piece) := by
  induction pieces generalizing p with
  | nil => rfl
  | cons piece pieces ih => rw [placed, placed, Position.after_down, ih, List.map_cons]

theorem token?_down (k : Nat) (p : Position) (piece : Piece) :
    token? (p.down k, piece) = (token? (p, piece)).map (·.down k) := by
  obtain ⟨text, form⟩ := piece
  cases form <;> rfl

theorem report?_down (k : Nat) (p : Position) (piece : Piece) :
    report? (p.down k, piece) = (report? (p, piece)).map (·.down k) := by
  obtain ⟨text, form⟩ := piece
  cases form <;> rfl

/-- The tokens of a text without the closing one. -/
def words (source : List Char) : List Token :=
  (placed .start (Piece.split source)).filterMap token?

theorem mem_pieces_of_placed {p q : Position} {pieces : List Piece} {piece : Piece}
    (member : (q, piece) ∈ placed p pieces) : piece ∈ pieces := by
  induction pieces generalizing p with
  | nil => simp [placed] at member
  | cons first rest ih =>
    obtain same | later := List.mem_cons.1 member
    · exact List.mem_cons.2 (.inl (Prod.ext_iff.1 same).2)
    · exact List.mem_cons_of_mem _ (ih later)

theorem exists_place {pieces : List Piece} {piece : Piece} (member : piece ∈ pieces)
    (p : Position) :
    ∃ q, (q, piece) ∈ placed p pieces := by
  induction pieces generalizing p with
  | nil => simp at member
  | cons first rest ih =>
    obtain rfl | later := List.mem_cons.1 member
    · exact ⟨p, List.mem_cons_self⟩
    · obtain ⟨q, place⟩ := ih later (p.after first.text)
      exact ⟨q, List.mem_cons_of_mem _ place⟩

theorem tokens_ofChars (source : List Char) :
    (ofChars source).tokens = words source ++ [.finish (Position.start.after source)] := rfl

theorem reports_ofChars (source : List Char) :
    (ofChars source).reports = (placed .start (Piece.split source)).filterMap report? := rfl

theorem reports_lexical {source : List Char} {r : Report} (member : r ∈ (ofChars source).reports) :
    r.kind = .lexical := by
  rw [reports_ofChars] at member
  obtain ⟨⟨p, text, form⟩, -, report⟩ := List.mem_filterMap.1 member
  cases form with
  | fault f =>
    obtain rfl := Option.some.inj report
    rfl
  | _ => simp [report?] at report

theorem words_kind {source : List Char} {t : Token} (member : t ∈ words source) :
    t.kind ≠ .finish := by
  obtain ⟨⟨p, text, form⟩, placed, token⟩ := List.mem_filterMap.1 member
  cases form with
  | token kind literal =>
    obtain rfl := Option.some.inj token
    obtain ⟨c, cs, same⟩ := Piece.exists_first (mem_pieces_of_placed placed)
    exact Piece.kind_ne_finish (congrArg Piece.form same).symm
  | _ => simp [token?] at token

theorem content_ofChars (source : List Char) :
    Reading.content (ofChars source).tokens = words source := by
  have all : ∀ t ∈ words source, (t.kind != .finish) = true := fun t member => by
    simpa using words_kind member
  rw [Reading.content, tokens_ofChars, List.takeWhile_append_of_pos all]
  simp [Token.finish]

theorem closing_ofChars (source : List Char) :
    Reading.closing (ofChars source).tokens = .finish (Position.start.after source) := by
  have none : (words source).find? (·.kind == .finish) = none := by
    rw [List.find?_eq_none]
    intro t member
    simpa using words_kind member
  rw [Reading.closing, tokens_ofChars, List.find?_append, none]
  simp [Token.finish]

theorem form_of_silent {source : List Char} (silent : (ofChars source).reports = []) {piece : Piece}
    (member : piece ∈ Piece.split source) (f : LexicalFault) : piece.form ≠ .fault f := by
  intro fault
  obtain ⟨p, place⟩ := exists_place member .start
  have reported : .lexical p f ∈ (ofChars source).reports := by
    refine List.mem_filterMap.2 ⟨(p, piece), place, ?_⟩
    obtain ⟨text, form⟩ := piece
    obtain rfl : form = .fault f := fault
    rfl
  rw [silent] at reported
  exact List.not_mem_nil reported

/-- After a newline a text is scanned as on its own, further down. -/
theorem ofChars_seam {a : List Char} (silent : (ofChars a).reports = [])
    (outside : Piece.endsInComment a = false) (b : List Char) :
    words (a ++ '\n' :: b) = words a ++ (words b).map (·.down (1 + a.count '\n')) ∧
      (ofChars (a ++ '\n' :: b)).reports =
        (ofChars b).reports.map (·.down (1 + a.count '\n')) := by
  have cut := Piece.split_seam (fun p member => form_of_silent silent member _)
    (Piece.closed_of_last outside) b
  have places : placed .start (Piece.split (a ++ '\n' :: b)) =
      placed .start (Piece.split a) ++ (Position.start.after a, ⟨['\n'], .blank⟩) ::
        (placed .start (Piece.split b)).map fun (q, piece) =>
          (q.down (1 + a.count '\n'), piece) := by
    rw [cut, placed_append, Piece.flatMap_split, placed, ← placed_down, Position.after_cons,
      Position.after_nil, Position.next_after_start]
  constructor
  · rw [words, places, List.filterMap_append, List.filterMap_cons_none rfl,
      List.filterMap_map, words,
      words, List.map_filterMap]
    simp only [Function.comp_def, token?_down]
  · have first : (placed .start (Piece.split a)).filterMap report? = [] := silent
    rw [reports_ofChars, places, List.filterMap_append, first, List.filterMap_cons_none rfl,
      List.filterMap_map, reports_ofChars, List.map_filterMap, List.nil_append]
    simp only [Function.comp_def, report?_down]

theorem after_seam (a b : List Char) :
    Position.start.after (a ++ '\n' :: b) =
      (Position.start.after b).down (1 + a.count '\n') := by
  rw [Position.after_append, Position.after_cons, Position.next_after_start, Position.after_down]

end Scan

end Scriptlet
