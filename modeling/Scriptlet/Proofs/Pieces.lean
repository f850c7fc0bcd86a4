import Scriptlet.Token.Piece

/-! Pieces tile their text, and a newline is a seam: a text that leaves nothing open before it is
cut as if it stood alone. After a token any blank is one. -/
namespace Scriptlet.Piece

theorem content_append {cs : List Char} (quoted : '"' ∈ cs) :
    ∃ rest, cs = cs.takeWhile (· != '"') ++ '"' :: rest := by
  induction cs with
  | nil => simp at quoted
  | cons c cs ih =>
    by_cases quote : c = '"'
    · exact ⟨cs, by simp [quote]⟩
    · obtain ⟨rest, same⟩ := ih (by simpa [Ne.symm quote] using quoted)
      exact ⟨rest, by simp [quote, ← same]⟩

theorem commentRest_within (cs : List Char) : commentRest cs <+: cs := by
  fun_induction commentRest cs with
  | case1 rest => exact ⟨rest, rfl⟩
  | case2 c cs _ ih => exact List.cons_prefix_cons.2 ⟨rfl, ih⟩
  | case3 => exact List.nil_prefix

theorem fraction_within {cs : List Char} (some : (fraction cs).isEmpty = false) :
    '.' :: fraction cs <+: cs := by
  cases cs with
  | nil => simp [fraction] at some
  | cons c cs =>
    by_cases point : c = '.'
    · subst point
      exact List.cons_prefix_cons.2 ⟨rfl, List.takeWhile_prefix _⟩
    · simp [fraction, point] at some

theorem numberAt_within (cs : List Char) : (numberAt cs).text <+: cs := by
  simp only [numberAt]
  split
  · exact List.takeWhile_prefix _
  · rename_i some
    have decimals := fraction_within (Bool.eq_false_iff.2 some)
    have whole := (List.prefix_append_right_inj (cs.takeWhile Char.isDigit)).2 decimals
    rwa [List.takeWhile_append_dropWhile] at whole

theorem stringAfter_within (cs : List Char) : (stringAfter cs).text <+: '"' :: cs := by
  unfold stringAfter
  split
  · rename_i quoted
    obtain ⟨rest, same⟩ := content_append (List.contains_iff_mem.1 quoted)
    exact ⟨rest, by simp [← same]⟩
  · exact List.prefix_rfl

theorem markAt_within (c : Char) (cs : List Char) : (markAt c cs).text <+: c :: cs := by
  unfold markAt
  split
  · exact List.cons_prefix_cons.2 ⟨rfl, List.take_prefix 1 cs⟩
  · split
    · exact ⟨cs, rfl⟩
    · exact ⟨cs, rfl⟩

theorem first_within (c : Char) (cs : List Char) : (first c cs).text <+: c :: cs := by
  unfold first
  split
  · simp only [List.cons_prefix_cons, true_and]
    exact List.takeWhile_prefix _
  · simp only [List.cons_prefix_cons, true_and]
    exact commentRest_within _
  · exact stringAfter_within cs
  · split
    · exact ⟨cs, rfl⟩
    · split
      · exact numberAt_within (c :: cs)
      · split
        · exact List.takeWhile_prefix _
        · exact markAt_within c cs

theorem first_ne_nil (c : Char) (cs : List Char) : (first c cs).text ≠ [] := by
  unfold first
  split
  · simp
  · simp
  · unfold stringAfter
    split <;> simp
  · split
    · simp
    · split
      · rename_i digit
        simp only [numberAt]
        split <;> simp [digit]
      · split
        · rename_i start
          simp [wordAt, isNameRest, start]
        · unfold markAt
          split
          · simp
          · split <;> simp

theorem first_append (c : Char) (cs : List Char) :
    (first c cs).text ++ cs.drop ((first c cs).text.length - 1) = c :: cs := by
  obtain ⟨rest, same⟩ := first_within c cs
  obtain ⟨d, ds, shape⟩ := List.exists_cons_of_ne_nil (first_ne_nil c cs)
  rw [shape] at same ⊢
  obtain ⟨rfl, rfl⟩ := List.cons.inj same
  simp

theorem flatMap_split (cs : List Char) : (split cs).flatMap (·.text) = cs := by
  fun_induction split cs with
  | case1 => rfl
  | case2 c cs ih => rw [List.flatMap_cons, ih, first_append]

def unclosed (p : Piece) : Bool :=
  match p.text with
  | '/' :: '*' :: cs => !(['*', '/'].isSuffixOf cs)
  | _ => false

theorem commentRest_seam {cs : List Char} (closed : ['*', '/'] <:+ commentRest cs)
    (ds : List Char) :
    commentRest (cs ++ ds) = commentRest cs := by
  fun_induction commentRest cs with
  | case1 rest => rfl
  | case2 c cs other ih =>
    have further : ['*', '/'] <:+ commentRest cs := by
      obtain same | further := List.suffix_cons_iff.1 closed
      · exfalso
        obtain ⟨rfl, last⟩ := List.cons.inj same
        obtain ⟨rest, whole⟩ := commentRest_within cs
        rw [← last] at whole
        exact other rest rfl whole.symm
      · exact further
    have inside : cs ≠ [] := by
      rintro rfl
      simp [commentRest] at further
    obtain ⟨d, cs, rfl⟩ := List.exists_cons_of_ne_nil inside
    rw [← ih further, List.cons_append, commentRest]
    intro rest star slash
    obtain ⟨rfl, -⟩ := List.cons.inj slash
    exact other cs star rfl
  | case3 => simp at closed

theorem first_plain {c : Char} {cs : List Char} (quote : c ≠ '"')
    (comment : c = '/' → cs.head? ≠ some '/' ∧ cs.head? ≠ some '*') :
    first c cs =
      if isBlank c then ⟨[c], .blank⟩
      else if c.isDigit then numberAt (c :: cs)
      else if isNameStart c then wordAt (c :: cs)
      else markAt c cs := by
  unfold first
  split
  · simp at comment
  · simp at comment
  · exact absurd rfl quote
  · rfl

theorem takeWhile_seam {α : Type} {p : α → Bool} {d : α} (stop : p d = false) (xs ys : List α) :
    (xs ++ d :: ys).takeWhile p = xs.takeWhile p := by
  induction xs with
  | nil => simp [stop]
  | cons x xs ih => by_cases holds : p x <;> simp [holds, ih]

theorem dropWhile_seam {α : Type} {p : α → Bool} {d : α} (stop : p d = false) (xs ys : List α) :
    (xs ++ d :: ys).dropWhile p = xs.dropWhile p ++ d :: ys := by
  induction xs with
  | nil => simp [stop]
  | cons x xs ih => by_cases holds : p x <;> simp [holds, ih]

theorem isBlank_iff {c : Char} : isBlank c ↔ c ∈ [' ', '\t', '\r', '\n'] := by
  simp only [isBlank, Bool.or_eq_true, beq_iff_eq, List.mem_cons, List.not_mem_nil, or_false]
  constructor
  · rintro (((rfl | rfl) | rfl) | rfl) <;> simp
  · rintro (rfl | rfl | rfl | rfl) <;> simp

theorem blank_cases {d : Char} (blank : isBlank d) : d = ' ' ∨ d = '\t' ∨ d = '\r' ∨ d = '\n' := by
  simpa using isBlank_iff.1 blank

section Seams

-- a blank goes on with no number, word or operator
variable {d : Char} (blank : isBlank d)

include blank

theorem isDigit_of_blank : d.isDigit = false := by
  obtain rfl | rfl | rfl | rfl := blank_cases blank <;> decide

theorem isNameRest_of_blank : isNameRest d = false := by
  obtain rfl | rfl | rfl | rfl := blank_cases blank <;> decide

theorem ofPair_of_blank (c : Char) : Kind.ofPair c d = none := by
  obtain rfl | rfl | rfl | rfl := blank_cases blank <;> (unfold Kind.ofPair; split <;> simp_all)

theorem fraction_seam (cs ds : List Char) : fraction (cs ++ d :: ds) = fraction cs := by
  cases cs with
  | nil =>
    have point : d ≠ '.' := by
      rintro rfl
      simp [isBlank] at blank
    simp [fraction, point]
  | cons c cs =>
    by_cases point : c = '.'
    · subst point
      exact takeWhile_seam (isDigit_of_blank blank) cs ds
    · simp [fraction, point]

theorem numberAt_seam (cs ds : List Char) : numberAt (cs ++ d :: ds) = numberAt cs := by
  simp only [numberAt, takeWhile_seam (isDigit_of_blank blank),
    dropWhile_seam (isDigit_of_blank blank), fraction_seam blank]

theorem wordAt_seam (cs ds : List Char) : wordAt (cs ++ d :: ds) = wordAt cs := by
  simp only [wordAt, takeWhile_seam (isNameRest_of_blank blank)]

theorem markAt_seam (c : Char) (cs ds : List Char) : markAt c (cs ++ d :: ds) = markAt c cs := by
  cases cs with
  | nil => simp [markAt, ofPair_of_blank blank]
  | cons => simp [markAt]

/-- A blank ends every piece that is neither a comment nor a string. -/
theorem first_plain_seam {c : Char} {cs : List Char} (quote : c ≠ '"')
    (comment : c = '/' → cs.head? ≠ some '/' ∧ cs.head? ≠ some '*') (ds : List Char) :
    first c (cs ++ d :: ds) = first c cs := by
  have further : c = '/' → (cs ++ d :: ds).head? ≠ some '/' ∧ (cs ++ d :: ds).head? ≠ some '*' := by
    intro slash
    cases cs with
    | nil => obtain rfl | rfl | rfl | rfl := blank_cases blank <;> simp
    | cons => exact comment slash
  rw [first_plain quote comment, first_plain quote further, ← List.cons_append,
    numberAt_seam blank, wordAt_seam blank, markAt_seam blank]

end Seams

theorem stringAfter_seam {cs : List Char}
    (terminated : (stringAfter cs).form ≠ .fault .unterminatedString) (ds : List Char) :
    stringAfter (cs ++ ds) = stringAfter cs := by
  by_cases quoted : '"' ∈ cs
  · obtain ⟨rest, same⟩ := content_append quoted
    have content : (cs ++ ds).takeWhile (· != '"') = cs.takeWhile (· != '"') := by
      rw [same, List.append_assoc, List.cons_append, takeWhile_seam (by decide),
        takeWhile_seam (by decide)]
    simp [stringAfter, quoted, content]
  · simp [stringAfter, quoted] at terminated

theorem first_seam {c : Char} {cs : List Char}
    (terminated : (first c cs).form ≠ .fault .unterminatedString)
    (closed : (first c cs).unclosed = false) (ds : List Char) :
    first c (cs ++ '\n' :: ds) = first c cs := by
  by_cases quote : c = '"'
  · subst quote
    exact stringAfter_seam terminated _
  by_cases comment : c = '/' → cs.head? ≠ some '/' ∧ cs.head? ≠ some '*'
  · exact first_plain_seam rfl quote comment ds
  · obtain ⟨rfl, starts⟩ : c = '/' ∧ (cs.head? ≠ some '/' → cs.head? = some '*') := by
      simpa using comment
    by_cases line : cs.head? = some '/'
    · obtain ⟨cs, rfl⟩ := List.head?_eq_some_iff.1 line
      simp only [first, List.cons_append, takeWhile_seam (p := (· != '\n')) (d := '\n') (by decide)]
    · obtain ⟨cs, rfl⟩ := List.head?_eq_some_iff.1 (starts line)
      have suffix : ['*', '/'] <:+ commentRest cs := by
        simpa [first, unclosed] using closed
      simp only [first, List.cons_append, commentRest_seam suffix]

theorem first_token_seam {c : Char} {cs : List Char} {kind : Kind} {literal : Option Value}
    (token : (first c cs).form = .token kind literal) {d : Char} (blank : isBlank d)
    (ds : List Char) : first c (cs ++ d :: ds) = first c cs := by
  by_cases quote : c = '"'
  · subst quote
    have form : (stringAfter cs).form = .token kind literal := token
    exact stringAfter_seam (by simp [form]) _
  · refine first_plain_seam blank quote ?_ ds
    rintro rfl
    constructor
    · intro line
      obtain ⟨cs, rfl⟩ := List.head?_eq_some_iff.1 line
      simp [first] at token
    · intro block
      obtain ⟨cs, rfl⟩ := List.head?_eq_some_iff.1 block
      simp [first] at token

theorem commentRest_of_open {cs : List Char} (still : ¬ ['*', '/'] <:+ commentRest cs) :
    commentRest cs = cs := by
  fun_induction commentRest cs with
  | case1 rest => exact absurd List.suffix_rfl still
  | case2 c cs _ ih =>
    rw [ih fun closed => still (closed.trans (List.suffix_cons c _))]
  | case3 => rfl

theorem text_of_unclosed {c : Char} {cs : List Char} (still : (first c cs).unclosed) :
    (first c cs).text = c :: cs := by
  obtain ⟨rest, shape⟩ : ∃ rest, (first c cs).text = '/' :: '*' :: rest := by
    unfold unclosed at still
    split at still
    · exact ⟨_, ‹_›⟩
    · simp at still
  have whole := first_within c cs
  rw [shape, List.cons_prefix_cons] at whole
  obtain ⟨rfl, inside⟩ := whole
  cases cs with
  | nil => simp at inside
  | cons d cs =>
    obtain ⟨rfl, -⟩ := List.cons_prefix_cons.1 inside
    have open_ : ¬ ['*', '/'] <:+ commentRest cs := by
      intro closed
      simp [first, unclosed, List.isSuffixOf_iff_suffix.2 closed] at still
    simp only [first, commentRest_of_open open_]

/-- Whether a text ends inside a block comment. -/
def endsInComment (cs : List Char) : Bool :=
  (split cs).getLast?.any unclosed

theorem closed_of_last {cs : List Char} (outside : endsInComment cs = false) :
    ∀ p ∈ split cs, p.unclosed = false := by
  unfold endsInComment at outside
  fun_induction split cs with
  | case1 => simp
  | case2 c cs ih =>
    by_cases still : (first c cs).unclosed
    · -- nothing is left after an open comment, so it would be the last piece
      have none : cs.drop ((first c cs).text.length - 1) = [] := by
        simp [text_of_unclosed still]
      rw [none] at outside
      simp [split, still] at outside
    · intro p member
      obtain rfl | later := List.mem_cons.1 member
      · simpa using still
      · refine ih ?_ p later
        obtain ⟨q, rest, shape⟩ := List.exists_cons_of_ne_nil (List.ne_nil_of_mem later)
        rw [shape] at outside ⊢
        exact outside

/-- A newline is cut off from a text that leaves nothing open before it. -/
theorem split_seam {cs : List Char}
    (terminated : ∀ p ∈ split cs, p.form ≠ .fault .unterminatedString)
    (closed : ∀ p ∈ split cs, p.unclosed = false) (ds : List Char) :
    split (cs ++ '\n' :: ds) = split cs ++ ⟨['\n'], .blank⟩ :: split ds := by
  fun_induction split cs with
  | case1 =>
    rw [List.nil_append, split]
    rfl
  | case2 c cs ih =>
    have inside : (first c cs).text.length - 1 ≤ cs.length := by
      have length := (first_within c cs).length_le
      rw [List.length_cons] at length
      omega
    have rest := ih (fun p member => terminated p (List.mem_cons_of_mem _ member))
      (fun p member => closed p (List.mem_cons_of_mem _ member))
    rw [List.cons_append, split,
      first_seam (terminated _ List.mem_cons_self) (closed _ List.mem_cons_self),
      List.drop_append_of_le_length inside, rest, List.cons_append]

theorem ofWord_ne_finish (word : String) : Kind.ofWord word ≠ .finish := by
  unfold Kind.ofWord
  cases found : Kind.reserved.lookup word with
  | none => simp
  | some kind =>
    have kinds : ∀ entry ∈ Kind.reserved, entry.2 ≠ .finish := by decide
    obtain ⟨before, after, shape, -⟩ := List.lookup_eq_some_iff.1 found
    exact kinds (word, kind) (shape ▸ by simp)

theorem ofPair_ne_finish {c d : Char} {kind : Kind} (pair : Kind.ofPair c d = some kind) :
    kind ≠ .finish := by
  rintro rfl
  unfold Kind.ofPair at pair
  split at pair <;> simp at pair

theorem ofChar_ne_finish {c : Char} {kind : Kind} (mark : Kind.ofChar c = some kind) :
    kind ≠ .finish := by
  rintro rfl
  unfold Kind.ofChar at mark
  split at mark <;> simp at mark

theorem kind_ne_finish {c : Char} {cs : List Char} {kind : Kind} {literal : Option Value}
    (form : (first c cs).form = .token kind literal) : kind ≠ .finish := by
  unfold first at form
  split at form
  · simp at form
  · simp at form
  · unfold stringAfter at form
    split at form
    · simp only [Form.token.injEq] at form
      simp [← form.1]
    · simp at form
  · split at form
    · simp at form
    · split at form
      · simp only [numberAt, Form.token.injEq] at form
        simp [← form.1]
      · split at form
        · simp only [wordAt, Form.token.injEq] at form
          exact form.1 ▸ ofWord_ne_finish _
        · unfold markAt at form
          split at form
          · rename_i pair
            obtain ⟨d, -, pair⟩ := Option.bind_eq_some_iff.1 pair
            simp only [Form.token.injEq] at form
            exact form.1 ▸ ofPair_ne_finish pair
          · split at form
            · rename_i mark
              simp only [Form.token.injEq] at form
              exact form.1 ▸ ofChar_ne_finish mark
            · simp at form

theorem exists_first {cs : List Char} {p : Piece} (member : p ∈ split cs) :
    ∃ c rest, p = first c rest := by
  fun_induction split cs with
  | case1 => simp at member
  | case2 c cs ih =>
    obtain rfl | later := List.mem_cons.1 member
    · exact ⟨c, cs, rfl⟩
    · exact ih later

end Scriptlet.Piece
