import Scriptlet.Proofs.GrammarStmt
import Scriptlet.Proofs.Nesting
import Scriptlet.Proofs.Safety

/-! How high trees are. A chain of operators is read in a loop that counts no levels, and each of its
operators puts all that was read before it one node further down. So the limit bounds the height of a
tree only together with its longest chain, and there are trees of any height. -/
namespace Scriptlet

namespace Expr

def height : Expr → Nat
  | .literal _ => 1
  | .var _ => 1
  | .assign _ value => value.height + 1
  | .group inner => inner.height + 1
  | .unary _ right => right.height + 1
  | .binary left _ right => max left.height right.height + 1
  | .logical left _ right => max left.height right.height + 1
  | .choice condition consequent alternate =>
    max condition.height (max consequent.height alternate.height) + 1
  | .step operand _ => operand.height + 1

/-- How often one operator is the left operand of another, from the top of an expression on. -/
def spine : Expr → Nat
  | .binary left _ _ => left.spine + 1
  | .logical left _ _ => left.spine + 1
  | _ => 0

/-- The most operators in one chain. -/
def chain : Expr → Nat
  | .literal _ => 0
  | .var _ => 0
  | .assign _ value => value.chain
  | .group inner => inner.chain
  | .unary _ right => right.chain
  | .binary left _ right => max (left.spine + 1) (max left.chain right.chain)
  | .logical left _ right => max (left.spine + 1) (max left.chain right.chain)
  | .choice condition consequent alternate =>
    max condition.chain (max consequent.chain alternate.chain)
  | .step operand _ => operand.chain

theorem spine_le_chain (e : Expr) : e.spine ≤ e.chain := by
  cases e with
  | binary => exact Nat.le_max_left _ _
  | logical => exact Nat.le_max_left _ _
  | _ => exact Nat.zero_le _

section Height

variable {k : Nat}

theorem height_le_of_add {e : Expr} (short : e.chain ≤ k)
    (bound : e.height + k ≤ e.nesting * (k + 1) + e.spine) {n : Nat} (le : e.nesting ≤ n) :
    e.height ≤ n * (k + 1) := by
  have low := e.spine_le_chain
  have wide := Nat.mul_le_mul_right (k + 1) le
  omega

/-- Each level adds one chain to the height, of which only the operators left of it count at the
top. -/
theorem height_add_le (e : Expr) (short : e.chain ≤ k) :
    e.height + k ≤ e.nesting * (k + 1) + e.spine := by
  induction e with
  | literal | var =>
    simp only [height, nesting, spine]
    omega
  | assign _ e ih | group e ih | unary _ e ih | step e _ ih =>
    have short : e.chain ≤ k := short
    have inside := height_le_of_add short (ih short) (Nat.le_refl _)
    simp only [height, nesting, spine, Nat.succ_mul]
    omega
  | binary l _ r ihl ihr | logical l _ r ihl ihr =>
    simp only [chain, Nat.max_le] at short
    have left := ihl short.2.1
    have right := height_le_of_add short.2.2 (ihr short.2.2) (Nat.le_refl _)
    have wide := Nat.mul_le_mul_right (k + 1) (Nat.le_max_left l.nesting (r.nesting + 1))
    have deep := Nat.mul_le_mul_right (k + 1) (Nat.le_max_right l.nesting (r.nesting + 1))
    rw [Nat.succ_mul] at deep
    simp only [height, nesting, spine]
    omega
  | choice a b c iha ihb ihc =>
    simp only [chain, Nat.max_le] at short
    have first := height_le_of_add short.1 (iha short.1)
      (Nat.le_max_left a.nesting (max b.nesting c.nesting))
    have second := height_le_of_add short.2.1 (ihb short.2.1)
      (Nat.le_trans (Nat.le_max_left _ _) (Nat.le_max_right a.nesting (max b.nesting c.nesting)))
    have third := height_le_of_add short.2.2 (ihc short.2.2)
      (Nat.le_trans (Nat.le_max_right _ _) (Nat.le_max_right a.nesting (max b.nesting c.nesting)))
    simp only [height, nesting, spine, Nat.succ_mul]
    omega

theorem height_le (e : Expr) (short : e.chain ≤ k) {n : Nat} (le : e.nesting ≤ n) :
    e.height ≤ n * (k + 1) :=
  height_le_of_add short (e.height_add_le short) le

end Height

end Expr

namespace Stmt

mutual

def height : Stmt → Nat
  | .expr e => e.height + 1
  | .print _ e => e.height + 1
  | .declare _ initial => (initial.map Expr.height).getD 0 + 1
  | .block body => heights body + 1
  | .branch condition consequent alternate =>
    max condition.height (max (heights consequent) (heights alternate)) + 1
  | .loop condition body => max condition.height body.height + 1
  | .leave _ => 1

def heights : List Stmt → Nat
  | [] => 0
  | s :: rest => max s.height (heights rest)

end

mutual

def chain : Stmt → Nat
  | .expr e => e.chain
  | .print _ e => e.chain
  | .declare _ initial => (initial.map Expr.chain).getD 0
  | .block body => chains body
  | .branch condition consequent alternate =>
    max condition.chain (max (chains consequent) (chains alternate))
  | .loop condition body => max condition.chain body.chain
  | .leave _ => 0

def chains : List Stmt → Nat
  | [] => 0
  | s :: rest => max s.chain (chains rest)

end

variable {k : Nat}

mutual

theorem height_le : (s : Stmt) → s.chain ≤ k → {n : Nat} → s.nesting ≤ n → s.height ≤ n * (k + 1)
  | .expr e, short, n + 1, le => by
    have inside := e.height_le short (Nat.le_of_succ_le_succ le)
    rw [height, Nat.succ_mul]
    omega
  | .print _ e, short, n + 1, le => by
    have inside := e.height_le short (Nat.le_of_succ_le_succ le)
    rw [height, Nat.succ_mul]
    omega
  | .declare _ none, _, n + 1, _ => by
    rw [height, Nat.succ_mul]
    simp
    omega
  | .declare _ (some e), short, n + 1, le => by
    have inside := e.height_le short (Nat.le_of_succ_le_succ le)
    rw [height, Nat.succ_mul]
    simp
    omega
  | .block body, short, n + 1, le => by
    have inside := heights_le body short (Nat.le_of_succ_le_succ le)
    rw [height, Nat.succ_mul]
    omega
  | .branch condition consequent alternate, short, n + 1, le => by
    simp only [chain, Nat.max_le] at short
    simp only [nesting, Nat.succ_le_succ_iff, Nat.max_le] at le
    have first := condition.height_le short.1 le.1
    have second := heights_le consequent short.2.1 le.2.1
    have third := heights_le alternate short.2.2 le.2.2
    rw [height, Nat.succ_mul]
    omega
  | .loop condition body, short, n + 1, le => by
    simp only [chain, Nat.max_le] at short
    simp only [nesting, Nat.succ_le_succ_iff, Nat.max_le] at le
    have first := condition.height_le short.1 le.1
    have second := height_le body short.2 le.2
    rw [height, Nat.succ_mul]
    omega
  | .leave _, _, n + 1, _ => by
    rw [height, Nat.succ_mul]
    omega

theorem heights_le : (body : List Stmt) → chains body ≤ k → {n : Nat} → nestings body ≤ n →
    heights body ≤ n * (k + 1)
  | [], _, _, _ => Nat.zero_le _
  | s :: rest, short, n, le => by
    simp only [chains, nestings, Nat.max_le] at short le
    exact Nat.max_le.2 ⟨height_le s short.1 le.1, heights_le rest short.2 le.2⟩

end

end Stmt

namespace Parsed

def height : Parsed → Nat
  | .program entries => Stmt.heights (entries.filterMap id)
  | .expression e => e.height

def nesting : Parsed → Nat
  | .program entries => Stmt.nestings (entries.filterMap id)
  | .expression e => e.nesting

/-- The most operators in one chain. -/
def chain : Parsed → Nat
  | .program entries => Stmt.chains (entries.filterMap id)
  | .expression e => e.chain

theorem height_le (parsed : Parsed) {n : Nat} (le : parsed.nesting ≤ n) :
    parsed.height ≤ n * (parsed.chain + 1) := by
  cases parsed with
  | program entries => exact Stmt.heights_le _ (Nat.le_refl _) le
  | expression e => exact e.height_le (Nat.le_refl _) le

end Parsed

def addends : Nat → List Char
  | 0 => []
  | n + 1 => '+' :: 'x' :: addends n

namespace Piece

def addend : Piece := ⟨['x'], .token .name none⟩

def addends : Nat → List Piece
  | 0 => []
  | n + 1 => ⟨['+'], .token .plus none⟩ :: addend :: addends n

theorem first_addend {rest : List Char} (ends : ∀ c ∈ rest.head?, isNameRest c = false) :
    first 'x' rest = addend := by
  have plain : first 'x' rest = wordAt ('x' :: rest) := rfl
  have taken : ('x' :: rest).takeWhile isNameRest = ['x'] := by
    cases rest with
    | nil => rfl
    | cons c rest => simp [ends c rfl, show isNameRest 'x' = true by decide]
  rw [plain, wordAt, taken]
  decide +kernel

theorem split_addends (n : Nat) {ending : List Char}
    (ends : ∀ c ∈ ending.head?, isNameRest c = false) :
    split ('x' :: (Scriptlet.addends n ++ ending)) = addend :: (addends n ++ split ending) := by
  induction n with
  | zero =>
    rw [split, Scriptlet.addends, List.nil_append, first_addend ends]
    rfl
  | succ n ih =>
    have plus : first '+' ('x' :: (Scriptlet.addends n ++ ending)) = ⟨['+'], .token .plus none⟩ := rfl
    rw [split, first_addend (by simp [Scriptlet.addends]; decide), Scriptlet.addends]
    simp only [List.cons_append, addend, List.length_singleton, Nat.sub_self, List.drop_zero]
    rw [split, plus]
    simp only [List.length_singleton, Nat.sub_self, List.drop_zero, ih, addends, addend,
      List.cons_append]

end Piece

namespace Grammar

theorem derives_addend (d : Nat) {t : Token} (name : t.kind = .name) :
    Derives d .product [t] (.var t) :=
  .plain rfl (.plain rfl (.plain rfl (.atom (.name name))))

theorem derives_sum (d n : Nat) (p : Position) {before : List Token} {left : Expr}
    (derived : Derives d .sum before left) :
    ∃ e, Derives d .sum (before ++ (Scan.placed p (Piece.addends n)).filterMap Scan.token?) e ∧
      left.height + n ≤ e.height := by
  induction n generalizing p before left with
  | zero => exact ⟨left, by simpa [Piece.addends, Scan.placed] using derived, Nat.le_refl _⟩
  | succ n ih =>
    have further : Derives d .sum (before ++ ⟨.plus, "+", none, p⟩ ::
        [⟨.name, "x", none, p.after ['+']⟩]) (.binary left ⟨.plus, "+", none, p⟩
          (.var ⟨.name, "x", none, p.after ['+']⟩)) :=
      .joined rfl derived (by simp [Level.operators]) (derives_addend d rfl)
    obtain ⟨e, whole, higher⟩ := ih ((p.after ['+']).after ['x']) further
    refine ⟨e, ?_, ?_⟩
    · rw [List.append_assoc] at whole
      exact whole
    · simp only [Expr.height] at higher
      omega

/-- A text of `n` operators with its tokens is an expression of at least that height. -/
theorem derives_addends (d n : Nat) :
    ∃ e, Derives (d + 1) .expression
      ((Scan.placed .start (Piece.addend :: Piece.addends n)).filterMap Scan.token?) e ∧
        n < e.height := by
  have first : Derives d .sum [⟨.name, "x", none, .start⟩] (.var ⟨.name, "x", none, .start⟩) :=
    .plain rfl (derives_addend d rfl)
  obtain ⟨e, derived, higher⟩ := derives_sum d n (Position.start.after ['x']) first
  refine ⟨e, .deeper (.plain rfl (.plain rfl (.plain rfl (.plain rfl (.plain rfl
    (.plain rfl derived)))))), ?_⟩
  simp only [Expr.height] at higher
  omega

end Grammar

section Sums

theorem Piece.form_addends {n : Nat} {piece : Piece} (member : piece ∈ addend :: addends n) :
    ∃ kind, piece.form = .token kind none := by
  obtain rfl | later := List.mem_cons.1 member
  · exact ⟨.name, rfl⟩
  · induction n with
    | zero => simp [addends] at later
    | succ n ih =>
      obtain rfl | further := List.mem_cons.1 later
      · exact ⟨.plus, rfl⟩
      · obtain rfl | further := List.mem_cons.1 further
        · exact ⟨.name, rfl⟩
        · exact ih (List.mem_cons_of_mem _ further) further

variable (n : Nat) {ending : List Char} (ends : ∀ c ∈ ending.head?, Piece.isNameRest c = false)
include ends

theorem Scan.words_sum : ∃ p, words ('x' :: (addends n ++ ending)) =
    (placed .start (Piece.addend :: Piece.addends n)).filterMap token? ++
      (placed p (Piece.split ending)).filterMap token? := by
  rw [words, Piece.split_addends n ends, ← List.cons_append, placed_append, List.filterMap_append]
  exact ⟨_, rfl⟩

theorem Scan.reports_sum (fine : ∀ piece ∈ Piece.split ending, ∀ f, piece.form ≠ .fault f) :
    (ofChars ('x' :: (addends n ++ ending))).reports = [] := by
  rw [reports_ofChars, Piece.split_addends n ends, ← List.cons_append, List.filterMap_eq_nil_iff]
  rintro ⟨p, text, form⟩ place
  cases form with
  | fault f =>
    obtain early | late := List.mem_append.1 (mem_pieces_of_placed place)
    · obtain ⟨kind, form⟩ := Piece.form_addends early
      nomatch form
    · exact absurd rfl (fine _ late f)
  | _ => rfl

end Sums

theorem exists_high_program (n : Nat) :
    ∃ source, (scan source).reports = [] ∧ (parse (scan source).tokens).reports = [] ∧
      n < (parse (scan source).tokens).parsed.height := by
  have ends : ∀ c ∈ [';'].head?, Piece.isNameRest c = false := by
    rintro c ⟨⟩
    decide
  have last : Piece.split [';'] = [⟨[';'], .token .semicolon none⟩] := by decide +kernel
  obtain ⟨p, words⟩ := Scan.words_sum n ends
  obtain ⟨e, derived, higher⟩ := Grammar.derives_addends 126 n
  have statement : Grammar.Program (Scan.words ('x' :: (addends n ++ [';']))) [.expr e] := by
    rw [words, last, ← List.append_nil (List.filterMap _ _ ++ _)]
    exact .cons (.expr derived rfl) .nil
  have read := Grammar.reads_program_of_derived statement
  rw [Parser.Reads] at read
  have parsed : parse (scan (String.ofList ('x' :: (addends n ++ [';'])))).tokens =
      ⟨.program [some (.expr e)], []⟩ := by
    rw [scan, String.toList_ofList, parse, Scan.content_ofChars, read]
    rfl
  refine ⟨String.ofList ('x' :: (addends n ++ [';'])), ?_, by rw [parsed], ?_⟩
  · rw [scan, String.toList_ofList]
    exact Scan.reports_sum n ends (by simp [last])
  · rw [parsed]
    simp [Parsed.height, Stmt.heights, Stmt.height]
    omega

theorem exists_high_line (n : Nat) :
    ∃ source e, (scan source).reports = [] ∧
      parseLine (scan source).tokens = ⟨.expression e, []⟩ ∧ n < e.height := by
  have ends : ∀ c ∈ ([] : List Char).head?, Piece.isNameRest c = false := by simp
  have stops : Grammar.Stops .expression [] := by simp [Grammar.Stops]
  obtain ⟨p, words⟩ := Scan.words_sum n ends
  obtain ⟨e, derived, higher⟩ := Grammar.derives_addends 126 n
  have read := Grammar.complete_expression derived stops
  have none : (Scan.placed p (Piece.split [])).filterMap Scan.token? = [] := by
    rw [Piece.split]
    rfl
  rw [none] at words
  rw [← words] at read
  have absent : (Scan.words ('x' :: (addends n ++ []))).head?.any (·.kind ∈ Kind.opening) = false := by
    rw [words]
    rfl
  let tail : Tail := ⟨.finish (Position.start.after ('x' :: (addends n ++ []))), [], rfl⟩
  have clean : Clean (Scan.words ('x' :: (addends n ++ []))) := fun t member => Scan.words_kind member
  refine ⟨String.ofList ('x' :: (addends n ++ [])), e, ?_, ?_, higher⟩
  · rw [scan, String.toList_ofList]
    exact Scan.reports_sum n ends (by simp [Piece.split])
  · rw [scan, String.toList_ofList, Scan.tokens_ofChars]
    have lone : parseLine (_ ++ tail.closing :: tail.later) = _ := parseLine_of_lone clean absent read
    exact lone

theorem nesting_parse (tokens : List Token) :
    (parse tokens).parsed.nesting ≤ 9 * nestingLimit + 1 := by
  obtain ⟨found, rest, complaints, read⟩ :=
    Parser.unfailing_program.exists_read (Reading.content tokens)
  have bound := Parser.nesting_program.values (Reading.content tokens)
  rw [read] at bound
  rw [parse, read]
  exact bound found rfl

theorem nesting_parseLine (tokens : List Token) :
    (parseLine tokens).parsed.nesting ≤ 9 * nestingLimit + 1 := by
  rw [parseLine]
  split
  · rename_i e complaints whole
    have bound := (Parser.nesting_expression (nestingLimit - 1)).values (Reading.content tokens)
    have read := wholeExpression?_eq_some whole
    rw [Parser.bareExpression] at read
    rw [read] at bound
    exact Nat.le_trans (bound e rfl) (by decide)
  · exact nesting_parse tokens

/-- Whatever the tokens, their trees are at most as high as the limit lets them nest, with the longest
chain to each level. -/
theorem height_le_chain (tokens : List Token) :
    (parse tokens).parsed.height ≤
        (9 * nestingLimit + 1) * ((parse tokens).parsed.chain + 1) ∧
      (parseLine tokens).parsed.height ≤
        (9 * nestingLimit + 1) * ((parseLine tokens).parsed.chain + 1) :=
  ⟨Parsed.height_le _ (nesting_parse tokens), Parsed.height_le _ (nesting_parseLine tokens)⟩

/-- No number bounds the height of all trees that are read without a report. -/
theorem height_not_bounded :
    (¬ ∃ bound, ∀ source, (scan source).reports ++ (parse (scan source).tokens).reports = [] →
      (parse (scan source).tokens).parsed.height ≤ bound) ∧
    ¬ ∃ bound, ∀ source, (scan source).reports ++ (parseLine (scan source).tokens).reports = [] →
      (parseLine (scan source).tokens).parsed.height ≤ bound := by
  constructor
  · rintro ⟨bound, bounded⟩
    obtain ⟨source, lexical, grammatical, higher⟩ := exists_high_program bound
    exact Nat.not_le_of_lt higher (bounded source (by rw [lexical, grammatical]; rfl))
  · rintro ⟨bound, bounded⟩
    obtain ⟨source, e, lexical, read, higher⟩ := exists_high_line bound
    have low := bounded source (by rw [lexical, read]; rfl)
    rw [read] at low
    exact Nat.not_le_of_lt higher low

end Scriptlet
