import Scriptlet.Proofs.Layout

/-! Scanning again. A token of any text, even of a faulty one, is a lexeme of its own class, and a
blank after it ends it. So the tokens of a text, written out with blanks between them, are the tokens
of what is written, and nothing is reported. -/
namespace Scriptlet

/-- Words written one after another, with blanks between any two. -/
inductive Spaced : List String → String → Prop
  | nil : Spaced [] ""
  | one {word : String} : Spaced [word] word
  | cons {word next blanks text : String} {words : List String} : blanks ≠ "" →
      (∀ c ∈ blanks.toList, c ∈ [' ', '\t', '\r', '\n']) → Spaced (next :: words) text →
      Spaced (word :: next :: words) (word ++ blanks ++ text)

def Token.piece (t : Token) : Piece :=
  ⟨t.lexeme.toList, .token t.kind t.literal⟩

namespace Piece

def solid (p : Piece) : Bool :=
  p.form != .blank

theorem solid_split_blanks {blanks : List Char} (all : ∀ c ∈ blanks, c ∈ [' ', '\t', '\r', '\n'])
    (cs : List Char) : (split (blanks ++ cs)).filter solid = (split cs).filter solid := by
  induction blanks with
  | nil => rfl
  | cons c blanks ih =>
    obtain ⟨blank, others⟩ := List.forall_mem_cons.1 all
    rw [List.cons_append, split, Lexical.first_blank blank,
      List.filter_cons_of_neg (by simp [solid])]
    exact ih others

/-- A token is cut off whole from a text that goes on with a blank or not at all. -/
theorem split_spelled {t : Token} (spelled : t.Spelled) {cs : List Char}
    (ended : ∀ d ∈ cs.head?, isBlank d) : split (t.lexeme.toList ++ cs) = t.piece :: split cs := by
  obtain ⟨text, rest, spelling, lexeme⟩ := spelled
  have chars : t.lexeme.toList = text := by rw [spelling, String.toList_ofList]
  obtain ⟨c, text, rfl⟩ := List.exists_cons_of_ne_nil lexeme.ne_nil
  have alone := lexeme.first_eq
  have cut : first c (text ++ cs) = ⟨c :: text, .token t.kind t.literal⟩ := by
    cases cs with
    | nil => rw [List.append_nil, alone]
    | cons d ds => rw [first_token_seam (congrArg form alone) (ended d rfl), alone]
  rw [Token.piece, chars, List.cons_append, split, cut]
  simp

theorem solid_split_spaced {ts : List Token} (spelled : ∀ t ∈ ts, t.Spelled) {text : String}
    (spaced : Spaced (ts.map Token.lexeme) text) :
    (split text.toList).filter solid = ts.map Token.piece := by
  have token (t : Token) : t.piece.solid := by simp [solid, Token.piece]
  generalize same : ts.map Token.lexeme = words at spaced
  induction spaced generalizing ts with
  | nil =>
    obtain rfl := List.map_eq_nil_iff.1 same
    simp [split]
  | one =>
    obtain ⟨t, rfl, rfl⟩ := List.map_eq_singleton_iff.1 same
    have cut : split (t.lexeme.toList ++ []) = t.piece :: split [] :=
      split_spelled (spelled t List.mem_cons_self) (by simp)
    rw [List.append_nil] at cut
    simp [cut, split, token]
  | @cons word next blanks text words some all spaced ih =>
    obtain ⟨t, ts, rfl, rfl, tail⟩ := List.map_eq_cons_iff.1 same
    obtain ⟨first, others⟩ := List.forall_mem_cons.1 spelled
    have ended : ∀ d ∈ (blanks.toList ++ text.toList).head?, isBlank d := by
      obtain ⟨d, ds, shape⟩ := List.exists_cons_of_ne_nil (mt String.toList_eq_nil_iff.1 some)
      have blank := isBlank_iff.2 (all d (shape ▸ List.mem_cons_self))
      simpa [shape] using blank
    rw [String.toList_append, String.toList_append, List.append_assoc, split_spelled first ended,
      List.filter_cons_of_pos (token t), solid_split_blanks all, ih others tail, List.map_cons]

end Piece

namespace Scan

theorem tokens_of_solid {ts : List Token} {pieces : List Piece}
    (same : pieces.filter Piece.solid = ts.map Token.piece) (p : Position) :
    (placed p pieces).filterMap report? = [] ∧
      List.Forall₂ Token.Moved ts ((placed p pieces).filterMap token?) := by
  induction pieces generalizing ts p with
  | nil =>
    obtain rfl := List.map_eq_nil_iff.1 same.symm
    exact ⟨rfl, .nil⟩
  | cons piece pieces ih =>
    by_cases solid : piece.solid
    · rw [List.filter_cons_of_pos solid] at same
      obtain ⟨t, ts, rfl, rfl, tail⟩ := List.map_eq_cons_iff.1 same.symm
      obtain ⟨silent, moved⟩ := ih tail.symm (p.after t.piece.text)
      exact ⟨silent, .cons ⟨rfl, String.ofList_toList.symm, rfl⟩ moved⟩
    · rw [List.filter_cons_of_neg solid] at same
      obtain ⟨text, form⟩ := piece
      obtain rfl : form = .blank := by simpa [Piece.solid] using solid
      exact ih same _

end Scan

/-- Scanning is stable. The tokens of any text, faulty or not, written out with blanks between them are
scanned without a report to the same tokens, in other places, and the one that closes them. -/
theorem scan_spaced {source text : String}
    (spaced : Spaced (((scan source).tokens.filter (·.kind != .finish)).map Token.lexeme) text) :
    (scan text).reports = [] ∧ ∃ ts p, (scan text).tokens = ts ++ [.finish p] ∧
      List.Forall₂ Token.Moved ((scan source).tokens.filter (·.kind != .finish)) ts := by
  have inner : (scan source).tokens.filter (·.kind != .finish) = Scan.words source.toList := by
    have others : ∀ t ∈ Scan.words source.toList, (t.kind != .finish) = true := fun t member => by
      simpa using Scan.words_kind member
    rw [scan, Scan.tokens_ofChars, List.filter_append, List.filter_eq_self.2 others]
    simp [Token.finish]
  rw [inner] at spaced ⊢
  have same := Piece.solid_split_spaced (Scan.words_spelled source.toList) spaced
  obtain ⟨silent, moved⟩ := Scan.tokens_of_solid same .start
  exact ⟨silent, _, _, Scan.tokens_ofChars text.toList, moved⟩

theorem scan_spaced_of_faulty :
    (scan "7.\"a\n/*\"--x#- -\"open").reports ≠ [] ∧
      (scan "7\t.\r\n\"a\n/*\" -- x - -").reports = [] ∧
      ∃ ts p, (scan "7\t.\r\n\"a\n/*\" -- x - -").tokens = ts ++ [.finish p] ∧
        List.Forall₂ Token.Moved
          ((scan "7.\"a\n/*\"--x#- -\"open").tokens.filter (·.kind != .finish)) ts := by
  have lexemes : ((scan "7.\"a\n/*\"--x#- -\"open").tokens.filter (·.kind != .finish)).map
      Token.lexeme = ["7", ".", "\"a\n/*\"", "--", "x", "-", "-"] := by decide +kernel
  have text : "7\t.\r\n\"a\n/*\" -- x - -" = "7" ++ "\t" ++ ("." ++ "\r\n" ++ ("\"a\n/*\"" ++ " " ++
      ("--" ++ " " ++ ("x" ++ " " ++ ("-" ++ " " ++ "-"))))) := by decide +kernel
  refine ⟨by decide +kernel, scan_spaced ?_⟩
  rw [lexemes, text]
  exact .cons (by simp) (by simp) <| .cons (by simp) (by simp) <| .cons (by simp) (by simp) <|
    .cons (by simp) (by simp) <| .cons (by simp) (by simp) <| .cons (by simp) (by simp) .one

end Scriptlet
