import Mathlib.Data.List.TakeWhile
import Scriptlet.Proofs.Places

/-! The lexical classes, each said of a whole text and not of a way to read it. A text is cut by taking
the longest lexeme that it begins with, again and again; where no class has one, a faulty stretch is
cut off. There is one such cut of every text, the pieces are those of the scanner, and the tokens and
reports are read off it with the place of each piece. -/
namespace Scriptlet

namespace Lexical

def operators : List (String × Kind) :=
  [("(", .leftParen), (")", .rightParen), ("\x7b", .leftBrace), ("\x7d", .rightBrace),
    (",", .comma), (".", .dot), (";", .semicolon), ("?", .question), (":", .colon),
    ("-", .minus), ("--", .minusMinus), ("-=", .minusEqual),
    ("+", .plus), ("++", .plusPlus), ("+=", .plusEqual),
    ("*", .star), ("*=", .starEqual), ("/", .slash), ("/=", .slashEqual),
    ("%", .percent), ("%=", .percentEqual), ("!", .bang), ("!=", .bangEqual),
    ("=", .equal), ("==", .equalEqual), ("<", .less), ("<=", .lessEqual),
    (">", .greater), (">=", .greaterEqual)]

def Digits (cs : List Char) : Prop :=
  cs ≠ [] ∧ ∀ c ∈ cs, c.isDigit

def Letter (c : Char) : Prop :=
  c.isAlpha ∨ c = '_'

def Word (cs : List Char) : Prop :=
  (∀ c ∈ cs.head?, Letter c) ∧ cs ≠ [] ∧ ∀ c ∈ cs, Letter c ∨ c.isDigit

/-- A text is a lexeme of this form where `rest` follows it. Only a comment without a close looks at
what follows: there must be nothing. -/
inductive Lexeme : (text rest : List Char) → Form → Prop
  | blank {c : Char} {rest : List Char} : c ∈ [' ', '\t', '\r', '\n'] → Lexeme [c] rest .blank
  | lineComment {body rest : List Char} : '\n' ∉ body → Lexeme ('/' :: '/' :: body) rest .comment
  | blockComment {body rest : List Char} : ¬ ['*', '/'] <:+: body →
      Lexeme ('/' :: '*' :: (body ++ ['*', '/'])) rest .comment
  | openComment {body : List Char} : ¬ ['*', '/'] <:+: body → Lexeme ('/' :: '*' :: body) [] .comment
  | operator {text rest : List Char} {kind : Kind} : (String.ofList text, kind) ∈ operators →
      Lexeme text rest (.token kind none)
  | reserved {text rest : List Char} {kind : Kind} : (String.ofList text, kind) ∈ Kind.reserved →
      Lexeme text rest (.token kind (Piece.literal? kind))
  | name {text rest : List Char} : Word text →
      (∀ kind, (String.ofList text, kind) ∉ Kind.reserved) → Lexeme text rest (.token .name none)
  | whole {digits rest : List Char} : Digits digits →
      Lexeme digits rest (.token .number (some (.number (Number.read digits []))))
  | decimal {digits decimals rest : List Char} : Digits digits → Digits decimals →
      Lexeme (digits ++ '.' :: decimals) rest
        (.token .number (some (.number (Number.read digits decimals))))
  | string {content rest : List Char} : '"' ∉ content →
      Lexeme ('"' :: (content ++ ['"'])) rest (.token .string (some (.string (String.ofList content))))

/-- A lexeme with what follows it, such that the text begins with no longer one. -/
def Longest (text rest : List Char) (form : Form) : Prop :=
  Lexeme text rest form ∧ ∀ text' rest' form', text' ++ rest' = text ++ rest →
    Lexeme text' rest' form' → text'.length ≤ text.length

/-- What is cut off where no lexeme begins. -/
inductive Faulty : (text rest : List Char) → LexicalFault → Prop
  | openString {content : List Char} : '"' ∉ content →
      Faulty ('"' :: content) [] .unterminatedString
  | character {c : Char} {rest : List Char} : c ≠ '"' → Faulty [c] rest .unexpectedCharacter

/-- The pieces of a text, cut from the left. -/
inductive Cuts : List Char → List Piece → Prop
  | nil : Cuts [] []
  | lexeme {text rest : List Char} {form : Form} {pieces : List Piece} : Longest text rest form →
      Cuts rest pieces → Cuts (text ++ rest) (⟨text, form⟩ :: pieces)
  | fault {text rest : List Char} {f : LexicalFault} {pieces : List Piece} :
      (∀ text' rest' form, text' ++ rest' = text ++ rest → ¬ Lexeme text' rest' form) →
      Faulty text rest f → Cuts rest pieces → Cuts (text ++ rest) (⟨text, .fault f⟩ :: pieces)

def tokens (before : List Char) : List Piece → List Token
  | [] => [⟨.finish, "", none, .behind before⟩]
  | ⟨text, .token kind literal⟩ :: rest =>
    ⟨kind, String.ofList text, literal, .behind before⟩ :: tokens (before ++ text) rest
  | ⟨text, _⟩ :: rest => tokens (before ++ text) rest

def reports (before : List Char) : List Piece → Reports
  | [] => []
  | ⟨text, .fault f⟩ :: rest =>
    ⟨.lexical, .source, .behind before, f.message⟩ :: reports (before ++ text) rest
  | ⟨text, _⟩ :: rest => reports (before ++ text) rest

def mark? : List Char → Option Kind
  | [c] => Kind.ofChar c
  | [c, d] => Kind.ofPair c d
  | _ => none

theorem mark?_of_mem {text : List Char} {kind : Kind}
    (member : (String.ofList text, kind) ∈ operators) : mark? text = some kind := by
  have table : ∀ entry ∈ operators, mark? entry.1.toList = some entry.2 := by decide +kernel
  simpa using table _ member

theorem mem_of_ofChar {c : Char} {kind : Kind} (mark : Kind.ofChar c = some kind) :
    (String.ofList [c], kind) ∈ operators := by
  unfold Kind.ofChar at mark
  split at mark <;> cases mark <;> decide +kernel

theorem mem_of_ofPair {c d : Char} {kind : Kind} (mark : Kind.ofPair c d = some kind) :
    (String.ofList [c, d], kind) ∈ operators := by
  unfold Kind.ofPair at mark
  split at mark <;> cases mark <;> decide +kernel

theorem ofWord_of_reserved {text : List Char} {kind : Kind}
    (member : (String.ofList text, kind) ∈ Kind.reserved) :
    Kind.ofWord (String.ofList text) = kind := by
  have table : ∀ entry ∈ Kind.reserved, Kind.ofWord entry.1 = entry.2 := by decide +kernel
  exact table _ member

section Words

open Piece

theorem letter_iff {c : Char} : Letter c ↔ isNameStart c = true := by
  simp [Letter, isNameStart]

theorem word_iff {c : Char} {cs : List Char} :
    Word (c :: cs) ↔ isNameStart c = true ∧ ∀ d ∈ c :: cs, isNameRest d = true := by
  simp [Word, letter_iff, isNameRest]

theorem word_of_reserved {text : List Char} {kind : Kind}
    (member : (String.ofList text, kind) ∈ Kind.reserved) : Word text := by
  have table : Kind.reserved.all (fun entry => entry.1.toList.head?.any isNameStart &&
      entry.1.toList.all isNameRest) = true := by decide +kernel
  have entry := List.all_eq_true.1 table _ member
  rw [String.toList_ofList, Bool.and_eq_true, List.all_eq_true] at entry
  cases text with
  | nil => nomatch entry.1
  | cons c cs => exact word_iff.2 entry

theorem ofWord_of_other {text : List Char}
    (other : ∀ kind, (String.ofList text, kind) ∉ Kind.reserved) :
    Kind.ofWord (String.ofList text) = .name := by
  unfold Kind.ofWord
  cases found : Kind.reserved.lookup (String.ofList text) with
  | none => rfl
  | some kind =>
    obtain ⟨before, after, shape, -⟩ := List.lookup_eq_some_iff.1 found
    exact absurd (shape ▸ by simp) (other kind)

theorem lexeme_of_word {text : List Char} (word : Word text) (rest : List Char) :
    Lexeme text rest (.token (Kind.ofWord (String.ofList text))
      (literal? (Kind.ofWord (String.ofList text)))) := by
  by_cases reserved : ∃ kind, (String.ofList text, kind) ∈ Kind.reserved
  · obtain ⟨kind, member⟩ := reserved
    rw [ofWord_of_reserved member]
    exact .reserved member
  · have other : ∀ kind, (String.ofList text, kind) ∉ Kind.reserved :=
      fun kind member => reserved ⟨kind, member⟩
    rw [ofWord_of_other other]
    exact .name word other

end Words

section Comments

open Piece

theorem commentRest_of_close {body : List Char} (inside : ¬ ['*', '/'] <:+: body)
    (rest : List Char) : commentRest (body ++ '*' :: '/' :: rest) = body ++ ['*', '/'] := by
  induction body with
  | nil => rfl
  | cons c body ih =>
    rw [List.infix_cons_iff, not_or] at inside
    rw [List.cons_append, commentRest, ih inside.2, List.cons_append]
    intro further star slash
    cases body with
    | nil => simp at slash
    | cons d body =>
      obtain ⟨rfl, -⟩ := List.cons.inj slash
      exact inside.1 ⟨body, by simp [star]⟩

theorem commentRest_of_unclosed {body : List Char} (inside : ¬ ['*', '/'] <:+: body) :
    commentRest body = body := by
  apply commentRest_of_open
  intro closed
  exact inside (closed.isInfix.trans (commentRest_within body).isInfix)

theorem exists_first_close {cs : List Char} (closed : ['*', '/'] <:+: cs) :
    ∃ body rest, cs = body ++ '*' :: '/' :: rest ∧ ¬ ['*', '/'] <:+: body := by
  induction cs with
  | nil => simp at closed
  | cons c cs ih =>
    by_cases here : ['*', '/'] <+: c :: cs
    · obtain ⟨rest, same⟩ := here
      exact ⟨[], rest, same.symm, by simp⟩
    · obtain ⟨body, rest, rfl, inside⟩ := ih ((List.infix_cons_iff.1 closed).resolve_left here)
      refine ⟨c :: body, rest, rfl, ?_⟩
      rw [List.infix_cons_iff, not_or]
      exact ⟨fun early => here (early.trans ⟨'*' :: '/' :: rest, rfl⟩), inside⟩

theorem lexeme_comment {cs rest : List Char} (whole : commentRest cs ++ rest = cs) :
    Lexeme ('/' :: '*' :: commentRest cs) rest .comment := by
  by_cases closed : ['*', '/'] <:+: cs
  · obtain ⟨body, further, rfl, inside⟩ := exists_first_close closed
    rw [commentRest_of_close inside]
    exact .blockComment inside
  · rw [commentRest_of_unclosed closed] at whole ⊢
    obtain rfl : rest = [] := by simpa using whole
    exact .openComment closed

end Comments

section Cutting

open Piece

theorem lexeme_number {c : Char} {cs : List Char} (digit : c.isDigit) (rest : List Char) :
    Lexeme (numberAt (c :: cs)).text rest (numberAt (c :: cs)).form := by
  have whole : Digits ((c :: cs).takeWhile Char.isDigit) :=
    ⟨by simp [digit], fun d member => List.mem_takeWhile_imp member⟩
  simp only [numberAt]
  split
  · rename_i none
    rw [List.isEmpty_iff.1 none]
    exact .whole whole
  · rename_i some
    refine .decimal whole ⟨by simpa using some, ?_⟩
    intro d member
    unfold fraction at member
    split at member
    · exact List.mem_takeWhile_imp member
    · simp at member

theorem lexeme_wordAt {c : Char} {cs : List Char} (start : isNameStart c) (rest : List Char) :
    Lexeme (wordAt (c :: cs)).text rest (wordAt (c :: cs)).form := by
  have all : ∀ d ∈ (c :: cs).takeWhile isNameRest, isNameRest d = true :=
    fun d member => List.mem_takeWhile_imp member
  have rest_start : isNameRest c = true := by simp [isNameRest, start]
  rw [List.takeWhile_cons_of_pos rest_start] at all
  have word : Word ((c :: cs).takeWhile isNameRest) := by
    rw [List.takeWhile_cons_of_pos rest_start]
    exact word_iff.2 ⟨start, all⟩
  exact lexeme_of_word word rest

theorem lexeme_markAt {c : Char} (quote : c ≠ '"') (cs rest : List Char) :
    Lexeme (markAt c cs).text rest (markAt c cs).form ∨
      ∃ f, (markAt c cs).form = .fault f ∧ Faulty (markAt c cs).text rest f := by
  unfold markAt
  split
  · rename_i kind pair
    obtain ⟨d, first, mark⟩ := Option.bind_eq_some_iff.1 pair
    obtain ⟨cs, rfl⟩ := List.head?_eq_some_iff.1 first
    exact .inl (.operator (mem_of_ofPair mark))
  · split
    · rename_i kind mark
      exact .inl (.operator (mem_of_ofChar mark))
    · exact .inr ⟨_, rfl, .character quote⟩

theorem first_lexeme {c : Char} {cs rest : List Char}
    (whole : (first c cs).text ++ rest = c :: cs) :
    Lexeme (first c cs).text rest (first c cs).form ∨
      ∃ f, (first c cs).form = .fault f ∧ Faulty (first c cs).text rest f := by
  by_cases quote : c = '"'
  · subst quote
    have same : first '"' cs = stringAfter cs := rfl
    rw [same] at whole ⊢
    by_cases quoted : '"' ∈ cs
    · have content : '"' ∉ cs.takeWhile (· != '"') :=
        fun member => by simpa using List.mem_takeWhile_imp member
      simp only [stringAfter, List.contains_iff_mem, quoted, if_true]
      exact .inl (.string content)
    · simp only [stringAfter, List.contains_iff_mem, quoted, if_false] at whole ⊢
      obtain rfl : rest = [] := by simpa using whole
      exact .inr ⟨_, rfl, .openString quoted⟩
  by_cases comment : c = '/' → cs.head? ≠ some '/' ∧ cs.head? ≠ some '*'
  · rw [first_plain quote comment]
    split
    · rename_i blank
      exact .inl (.blank (by simpa [isBlank, or_assoc, or_left_comm] using blank))
    · split
      · rename_i digit
        exact .inl (lexeme_number digit rest)
      · split
        · rename_i start
          exact .inl (lexeme_wordAt start rest)
        · exact lexeme_markAt quote cs rest
  · obtain ⟨rfl, starts⟩ : c = '/' ∧ (cs.head? ≠ some '/' → cs.head? = some '*') := by
      simpa using comment
    by_cases line : cs.head? = some '/'
    · obtain ⟨cs, rfl⟩ := List.head?_eq_some_iff.1 line
      have body : '\n' ∉ cs.takeWhile (· != '\n') :=
        fun member => by simpa using List.mem_takeWhile_imp member
      exact .inl (.lineComment body)
    · obtain ⟨cs, rfl⟩ := List.head?_eq_some_iff.1 (starts line)
      have rest_eq : commentRest cs ++ rest = cs := by
        simpa [first] using whole
      exact .inl (lexeme_comment rest_eq)

end Cutting

/-- A piece takes a lexeme, or takes more than it and is not faulty. -/
def Reaches (p : Piece) (text : List Char) (form : Form) : Prop :=
  p = ⟨text, form⟩ ∨ text.length < p.text.length ∧ ∀ f, p.form ≠ .fault f

section Reaching

open Piece

theorem first_blank {c : Char} (blank : c ∈ [' ', '\t', '\r', '\n']) (rest : List Char) :
    first c rest = ⟨[c], .blank⟩ := by
  simp only [List.mem_cons, List.not_mem_nil, or_false] at blank
  obtain rfl | rfl | rfl | rfl := blank <;> rfl

theorem reaches_lineComment {body : List Char} (inside : '\n' ∉ body) (rest : List Char) :
    Reaches (first '/' ('/' :: (body ++ rest))) ('/' :: '/' :: body) .comment := by
  have all : ∀ c ∈ body, (c != '\n') = true := by
    intro c member
    simpa using fun same : c = '\n' => inside (same ▸ member)
  simp only [first, List.takeWhile_append_of_pos all]
  by_cases further : rest.takeWhile (· != '\n') = []
  · exact .inl (by rw [further, List.append_nil])
  · have longer := List.length_pos_iff.2 further
    refine .inr ⟨?_, by simp⟩
    simp only [List.length_cons, List.length_append]
    omega

theorem not_digit_of_start {c : Char} (start : isNameStart c = true) : c.isDigit = false := by
  have start : (decide (c.val ≥ 'A'.val ∧ c.val ≤ 'Z'.val) ||
      (decide (c.val ≥ 'a'.val) && decide (c.val ≤ 'z'.val)) || c == '_') = true := start
  simp only [Bool.or_eq_true, Bool.and_eq_true, decide_eq_true_eq, beq_iff_eq] at start
  simp only [Char.isDigit, Bool.and_eq_false_iff, decide_eq_false_iff_not]
  obtain (⟨low, -⟩ | ⟨low, -⟩) | rfl := start
  · exact .inr fun high => absurd (UInt32.le_trans low high) (by decide)
  · exact .inr fun high => absurd (UInt32.le_trans low high) (by decide)
  · decide

def special : List Char := ['"', '/', ' ', '\r', '\t', '\n']

theorem first_of_ordinary {c : Char} (ordinary : c ∉ special) (cs : List Char) :
    first c cs =
      if c.isDigit then numberAt (c :: cs)
      else if isNameStart c then wordAt (c :: cs)
      else markAt c cs := by
  simp only [special, List.mem_cons, List.not_mem_nil, or_false, not_or] at ordinary
  obtain ⟨quote, slash, space, ret, tab, newline⟩ := ordinary
  rw [first_plain quote fun same => absurd same slash]
  simp [isBlank, space, ret, tab, newline]

theorem first_of_start {c : Char} (start : isNameStart c = true) (cs : List Char) :
    first c cs = wordAt (c :: cs) := by
  have table : special.all (!isNameStart ·) = true := by decide
  have ordinary : c ∉ special := fun member => by
    simpa [start] using List.all_eq_true.1 table c member
  rw [first_of_ordinary ordinary, not_digit_of_start start, start]
  rfl

theorem first_of_digit {c : Char} (digit : c.isDigit = true) (cs : List Char) :
    first c cs = numberAt (c :: cs) := by
  have table : special.all (!·.isDigit) = true := by decide
  have ordinary : c ∉ special := fun member => by
    simpa [digit] using List.all_eq_true.1 table c member
  rw [first_of_ordinary ordinary, digit]
  rfl

theorem reaches_word {c : Char} {cs : List Char} (word : Word (c :: cs)) {kind : Kind}
    (same : Kind.ofWord (String.ofList (c :: cs)) = kind) (rest : List Char) :
    Reaches (first c (cs ++ rest)) (c :: cs) (.token kind (literal? kind)) := by
  obtain ⟨start, all⟩ := word_iff.1 word
  have taken : (c :: (cs ++ rest)).takeWhile isNameRest = c :: cs ++ rest.takeWhile isNameRest :=
    List.takeWhile_append_of_pos all
  rw [first_of_start start, wordAt, taken]
  by_cases further : rest.takeWhile isNameRest = []
  · rw [further, List.append_nil, same]
    exact .inl rfl
  · have longer := List.length_pos_iff.2 further
    refine .inr ⟨?_, by simp⟩
    rw [List.length_append]
    omega

theorem reaches_whole {c : Char} {cs : List Char} (digits : Digits (c :: cs)) (rest : List Char) :
    Reaches (first c (cs ++ rest)) (c :: cs)
      (.token .number (some (.number (Number.read (c :: cs) [])))) := by
  have taken : (c :: (cs ++ rest)).takeWhile Char.isDigit =
      c :: cs ++ rest.takeWhile Char.isDigit := List.takeWhile_append_of_pos digits.2
  rw [first_of_digit (digits.2 c List.mem_cons_self)]
  simp only [numberAt, taken]
  by_cases further : rest.takeWhile Char.isDigit = []
  · rw [further, List.append_nil]
    split
    · rename_i none
      rw [List.isEmpty_iff.1 none]
      exact .inl rfl
    · refine .inr ⟨?_, by simp⟩
      simp only [List.length_append, List.length_cons]
      omega
  · have longer := List.length_pos_iff.2 further
    refine .inr ⟨?_, by simp⟩
    split <;> simp only [List.length_append] <;> omega

theorem reaches_decimal {c : Char} {cs decimals : List Char} (digits : Digits (c :: cs))
    (behind : Digits decimals) (rest : List Char) :
    Reaches (first c (cs ++ '.' :: decimals ++ rest)) (c :: cs ++ '.' :: decimals)
      (.token .number (some (.number (Number.read (c :: cs) decimals)))) := by
  have shape : c :: (cs ++ '.' :: decimals ++ rest) = (c :: cs) ++ '.' :: (decimals ++ rest) := by
    simp
  have whole : (c :: (cs ++ '.' :: decimals ++ rest)).takeWhile Char.isDigit = c :: cs := by
    rw [shape, takeWhile_seam (by decide), List.takeWhile_eq_self_iff.2 digits.2]
  have left : (c :: (cs ++ '.' :: decimals ++ rest)).dropWhile Char.isDigit =
      '.' :: (decimals ++ rest) := by
    rw [shape, dropWhile_seam (by decide), List.dropWhile_eq_nil_iff.2 digits.2, List.nil_append]
  have taken : fraction ('.' :: (decimals ++ rest)) =
      decimals ++ rest.takeWhile Char.isDigit := List.takeWhile_append_of_pos behind.2
  rw [first_of_digit (digits.2 c List.mem_cons_self)]
  simp only [numberAt, whole, left, taken]
  rw [if_neg (by simp [behind.1])]
  by_cases further : rest.takeWhile Char.isDigit = []
  · rw [further, List.append_nil]
    exact .inl rfl
  · have longer := List.length_pos_iff.2 further
    refine .inr ⟨?_, by simp⟩
    simp only [List.length_append, List.length_cons]
    omega

theorem markAt_reaches {c : Char} {kind : Kind} (mark : Kind.ofChar c = some kind)
    (cs : List Char) : Reaches (markAt c cs) [c] (.token kind none) := by
  unfold markAt
  split
  · rename_i other pair
    obtain ⟨d, first, -⟩ := Option.bind_eq_some_iff.1 pair
    obtain ⟨cs, rfl⟩ := List.head?_eq_some_iff.1 first
    exact .inr ⟨by simp, nofun⟩
  · rw [mark]
    exact .inl rfl

theorem reaches_slash (rest : List Char) :
    Reaches (first '/' rest) ['/'] (.token .slash none) := by
  by_cases comment : rest.head? ≠ some '/' ∧ rest.head? ≠ some '*'
  · rw [first_plain (by decide) fun _ => comment]
    exact markAt_reaches rfl rest
  · have starts : rest.head? = some '/' ∨ rest.head? = some '*' := by
      simpa [imp_iff_not_or] using comment
    obtain line | block := starts
    · obtain ⟨rest, rfl⟩ := List.head?_eq_some_iff.1 line
      exact .inr ⟨by simp [first], by simp [first]⟩
    · obtain ⟨rest, rfl⟩ := List.head?_eq_some_iff.1 block
      exact .inr ⟨by simp [first], by simp [first]⟩

theorem plain_of_ofChar {c : Char} {kind : Kind} (mark : Kind.ofChar c = some kind) :
    (c ∈ special → c = '/') ∧ c.isDigit = false ∧ isNameStart c = false := by
  unfold Kind.ofChar at mark
  split at mark <;> cases mark <;> decide

theorem reaches_mark {c : Char} {kind : Kind} (mark : Kind.ofChar c = some kind)
    (rest : List Char) : Reaches (first c rest) [c] (.token kind none) := by
  by_cases slash : c = '/'
  · subst slash
    cases mark
    exact reaches_slash rest
  · obtain ⟨special, digit, start⟩ := plain_of_ofChar mark
    rw [first_of_ordinary (fun member => slash (special member)), digit, start]
    exact markAt_reaches mark rest

theorem reaches_operator {c : Char} {cs : List Char} {kind : Kind}
    (mark : mark? (c :: cs) = some kind) (rest : List Char) :
    Reaches (first c (cs ++ rest)) (c :: cs) (.token kind none) := by
  match cs with
  | [] => exact reaches_mark mark rest
  | [d] =>
    have pair : Kind.ofPair c d = some kind := mark
    unfold Kind.ofPair at pair
    split at pair <;> cases pair <;> exact .inl rfl

theorem reaches_string {content : List Char} (inside : '"' ∉ content) (rest : List Char) :
    Reaches (first '"' (content ++ '"' :: rest)) ('"' :: (content ++ ['"']))
      (.token .string (some (.string (String.ofList content)))) := by
  have all : ∀ c ∈ content, (c != '"') = true := by
    intro c member
    simpa using fun same : c = '"' => inside (same ▸ member)
  have taken : (content ++ '"' :: rest).takeWhile (· != '"') = content := by
    rw [takeWhile_seam (by decide), List.takeWhile_eq_self_iff.2 all]
  have same : first '"' (content ++ '"' :: rest) = stringAfter (content ++ '"' :: rest) := rfl
  rw [same]
  simp only [stringAfter, taken]
  rw [if_pos (by simp)]
  exact .inl rfl

/-- The first piece of a text takes every lexeme that the text begins with, or more. -/
theorem Lexeme.reached {text rest cs : List Char} {form : Form} {c : Char}
    (lexeme : Lexeme text rest form) (whole : text ++ rest = c :: cs) :
    Reaches (first c cs) text form := by
  cases lexeme with
  | blank blank =>
    obtain ⟨rfl, rfl⟩ := List.cons.inj whole
    exact .inl (first_blank blank _)
  | lineComment inside =>
    obtain ⟨rfl, rfl⟩ := List.cons.inj whole
    exact reaches_lineComment inside rest
  | @blockComment body _ inside =>
    have shape : '/' :: '*' :: (body ++ ['*', '/']) ++ rest =
        '/' :: '*' :: (body ++ '*' :: '/' :: rest) := by simp
    obtain ⟨rfl, rfl⟩ := List.cons.inj (shape.symm.trans whole)
    exact .inl (by simp only [first, commentRest_of_close inside])
  | openComment inside =>
    rw [List.append_nil] at whole
    obtain ⟨rfl, rfl⟩ := List.cons.inj whole
    exact .inl (by simp only [first, commentRest_of_unclosed inside])
  | operator member =>
    have mark := mark?_of_mem member
    cases text with
    | nil => simp [mark?] at mark
    | cons d ds =>
      obtain ⟨rfl, rfl⟩ := List.cons.inj whole
      exact reaches_operator mark rest
  | reserved member =>
    have word := word_of_reserved member
    cases text with
    | nil => exact absurd rfl word.2.1
    | cons d ds =>
      obtain ⟨rfl, rfl⟩ := List.cons.inj whole
      exact reaches_word word (ofWord_of_reserved member) rest
  | name word other =>
    cases text with
    | nil => exact absurd rfl word.2.1
    | cons d ds =>
      obtain ⟨rfl, rfl⟩ := List.cons.inj whole
      exact reaches_word word (ofWord_of_other other) rest
  | whole digits =>
    cases text with
    | nil => exact absurd rfl digits.1
    | cons d ds =>
      obtain ⟨rfl, rfl⟩ := List.cons.inj whole
      exact reaches_whole digits rest
  | @decimal digits decimals _ front behind =>
    cases digits with
    | nil => exact absurd rfl front.1
    | cons d ds =>
      obtain ⟨rfl, rfl⟩ := List.cons.inj whole
      exact reaches_decimal front behind rest
  | @string content _ inside =>
    have shape : '"' :: (content ++ ['"']) ++ rest = '"' :: (content ++ '"' :: rest) := by simp
    obtain ⟨rfl, rfl⟩ := List.cons.inj (shape.symm.trans whole)
    exact reaches_string inside rest

end Reaching

theorem Lexeme.ne_fault {text rest : List Char} {form : Form} (lexeme : Lexeme text rest form)
    (f : LexicalFault) : form ≠ .fault f := by
  cases lexeme <;> exact nofun

theorem Lexeme.ne_nil {text rest : List Char} {form : Form} (lexeme : Lexeme text rest form) :
    text ≠ [] := by
  cases lexeme with
  | operator member =>
    rintro rfl
    exact absurd (mark?_of_mem member) nofun
  | reserved member => exact (word_of_reserved member).2.1
  | name word => exact word.2.1
  | whole digits => exact digits.1
  | _ => simp

theorem Faulty.ne_nil {text rest : List Char} {f : LexicalFault} (faulty : Faulty text rest f) :
    text ≠ [] := by
  cases faulty <;> simp

theorem Longest.first_eq {text rest cs : List Char} {form : Form} {c : Char}
    (longest : Longest text rest form) (whole : text ++ rest = c :: cs) :
    Piece.first c cs = ⟨text, form⟩ := by
  obtain ⟨lexeme, most⟩ := longest
  obtain same | ⟨longer, fine⟩ := lexeme.reached whole
  · exact same
  · -- a longer piece would be a longer lexeme
    have cut := Piece.first_append c cs
    obtain further | ⟨f, fault, -⟩ := first_lexeme cut
    · have short := most _ _ _ (cut.trans whole.symm) further
      omega
    · exact absurd fault (fine f)

theorem Faulty.unique {text rest text' rest' : List Char} {f g : LexicalFault}
    (faulty : Faulty text rest f) (other : Faulty text' rest' g)
    (whole : text' ++ rest' = text ++ rest) : text' = text ∧ g = f := by
  cases faulty with
  | openString inside =>
    cases other with
    | openString => exact ⟨by simpa using whole, rfl⟩
    | character quote => exact absurd (List.cons.inj whole).1 quote
  | character quote =>
    cases other with
    | openString => exact absurd (List.cons.inj whole).1.symm quote
    | character => exact ⟨by rw [(List.cons.inj whole).1], rfl⟩

theorem Faulty.first_eq {text rest cs : List Char} {f : LexicalFault} {c : Char}
    (none : ∀ text' rest' form, text' ++ rest' = text ++ rest → ¬ Lexeme text' rest' form)
    (faulty : Faulty text rest f) (whole : text ++ rest = c :: cs) :
    Piece.first c cs = ⟨text, .fault f⟩ := by
  have cut := (Piece.first_append c cs).trans whole.symm
  obtain lexeme | ⟨g, fault, other⟩ := first_lexeme (Piece.first_append c cs)
  · exact absurd lexeme (none _ _ _ cut)
  · obtain ⟨same, rfl⟩ := faulty.unique other cut
    rw [← same, ← fault]

theorem cuts_first {c : Char} {cs : List Char} {pieces : List Piece}
    (cuts : Cuts (cs.drop ((Piece.first c cs).text.length - 1)) pieces) :
    Cuts (c :: cs) (Piece.first c cs :: pieces) := by
  have cut := Piece.first_append c cs
  have made : Cuts ((Piece.first c cs).text ++ cs.drop ((Piece.first c cs).text.length - 1))
      (⟨(Piece.first c cs).text, (Piece.first c cs).form⟩ :: pieces) := by
    obtain lexeme | ⟨f, fault, faulty⟩ := first_lexeme cut
    · refine .lexeme ⟨lexeme, fun text' rest' form' whole other => ?_⟩ cuts
      obtain same | ⟨longer, -⟩ := other.reached (whole.trans cut)
      · rw [same]
      · exact Nat.le_of_lt longer
    · rw [fault]
      refine .fault (fun text' rest' form' whole other => ?_) faulty cuts
      obtain same | ⟨-, fine⟩ := other.reached (whole.trans cut)
      · rw [same] at fault
        exact other.ne_fault f fault
      · exact fine f fault
  rwa [cut] at made

/-- There is one cut of a text, and its pieces are those of the scanner. -/
theorem cuts_iff {cs : List Char} {pieces : List Piece} :
    Cuts cs pieces ↔ pieces = Piece.split cs := by
  constructor
  · intro cuts
    induction cuts with
    | nil => rw [Piece.split]
    | @lexeme text rest form pieces longest _ ih =>
      obtain ⟨c, cs, rfl⟩ := List.exists_cons_of_ne_nil longest.1.ne_nil
      rw [List.cons_append, Piece.split, longest.first_eq List.cons_append, ih]
      simp
    | @fault text rest f pieces none faulty _ ih =>
      obtain ⟨c, cs, rfl⟩ := List.exists_cons_of_ne_nil faulty.ne_nil
      rw [List.cons_append, Piece.split, faulty.first_eq none List.cons_append, ih]
      simp
  · rintro rfl
    fun_induction Piece.split cs with
    | case1 => exact .nil
    | case2 c cs ih => exact cuts_first ih

theorem tokens_eq (before : List Char) (pieces : List Piece) :
    tokens before pieces = (Scan.placed (.behind before) pieces).filterMap Scan.token? ++
      [.finish (.behind (before ++ pieces.flatMap (·.text)))] := by
  induction pieces generalizing before with
  | nil => simp [tokens, Scan.placed, Token.finish]
  | cons piece rest ih =>
    obtain ⟨text, form⟩ := piece
    cases form <;>
      simp [tokens, Scan.placed, List.filterMap_cons, Scan.token?, ih, Position.after_behind]

theorem reports_eq (before : List Char) (pieces : List Piece) :
    reports before pieces = (Scan.placed (.behind before) pieces).filterMap Scan.report? := by
  induction pieces generalizing before with
  | nil => rfl
  | cons piece rest ih =>
    obtain ⟨text, form⟩ := piece
    cases form <;>
      simp [reports, Scan.placed, List.filterMap_cons, Scan.report?, Report.lexical, ih,
        Position.after_behind]

/-- Every text is cut in one way into longest lexemes and faulty stretches, and the scanner gives the
tokens and the reports of that cut. -/
theorem scan_reads_cut (source : String) :
    ∃ pieces, Cuts source.toList pieces ∧ (∀ others, Cuts source.toList others → others = pieces) ∧
      (scan source).tokens = tokens [] pieces ∧ (scan source).reports = reports [] pieces := by
  refine ⟨Piece.split source.toList, cuts_iff.2 rfl, fun others => cuts_iff.1, ?_, ?_⟩
  · have start : Position.behind [] = .start := rfl
    rw [tokens_eq, scan, Scan.tokens_ofChars, Piece.flatMap_split, start, List.nil_append,
      Position.after_start, Scan.words]
  · rw [reports_eq]
    rfl

end Lexical
end Scriptlet
