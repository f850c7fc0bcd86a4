import Scriptlet.Report

/-! The pieces of a source text and its tokens. The text is cut from the left into blanks, comments,
tokens and faulty stretches, and each cut takes as much as its class allows. -/
namespace Scriptlet

inductive Form where
  | blank
  | comment
  | token (kind : Kind) (literal : Option Value)
  | fault (f : LexicalFault)
deriving DecidableEq

structure Piece where
  text : List Char
  form : Form
deriving DecidableEq

namespace Piece

def isBlank (c : Char) : Bool :=
  c == ' ' || c == '\r' || c == '\t' || c == '\n'

def isNameStart (c : Char) : Bool :=
  c.isAlpha || c == '_'

def isNameRest (c : Char) : Bool :=
  isNameStart c || c.isDigit

/-- What follows the opening of a block comment, up to its first close or else to the end. -/
def commentRest : List Char → List Char
  | '*' :: '/' :: _ => ['*', '/']
  | c :: cs => c :: commentRest cs
  | [] => []

/-- The fraction that may follow the digits of a number: a point counts only before a digit. -/
def fraction : List Char → List Char
  | '.' :: cs => cs.takeWhile Char.isDigit
  | _ => []

def numberAt (cs : List Char) : Piece :=
  let whole := cs.takeWhile Char.isDigit
  let decimals := fraction (cs.dropWhile Char.isDigit)
  let text := if decimals.isEmpty then whole else whole ++ '.' :: decimals
  ⟨text, .token .number (some (.number (Number.read whole decimals)))⟩

/-- What follows an opening quote; without a closing one the whole text is lost. -/
def stringAfter (cs : List Char) : Piece :=
  if cs.contains '"' then
    let content := cs.takeWhile (· != '"')
    ⟨'"' :: content ++ ['"'], .token .string (some (.string (String.ofList content)))⟩
  else ⟨'"' :: cs, .fault .unterminatedString⟩

def literal? : Kind → Option Value
  | .trueWord => some (.bool true)
  | .falseWord => some (.bool false)
  | .nilWord => some .nil
  | _ => none

def wordAt (cs : List Char) : Piece :=
  let word := cs.takeWhile isNameRest
  let kind := Kind.ofWord (String.ofList word)
  ⟨word, .token kind (literal? kind)⟩

/-- An operator of two characters goes before one of its first alone. -/
def markAt (c : Char) (cs : List Char) : Piece :=
  match cs.head?.bind (Kind.ofPair c) with
  | some kind => ⟨c :: cs.take 1, .token kind none⟩
  | none =>
    match Kind.ofChar c with
    | some kind => ⟨[c], .token kind none⟩
    | none => ⟨[c], .fault .unexpectedCharacter⟩

/-- The first piece of a text that is not empty. -/
def first : Char → List Char → Piece
  | '/', '/' :: cs => ⟨'/' :: '/' :: cs.takeWhile (· != '\n'), .comment⟩
  | '/', '*' :: cs => ⟨'/' :: '*' :: commentRest cs, .comment⟩
  | '"', cs => stringAfter cs
  | c, cs =>
    if isBlank c then ⟨[c], .blank⟩
    else if c.isDigit then numberAt (c :: cs)
    else if isNameStart c then wordAt (c :: cs)
    else markAt c cs

/-- The pieces of a text. A piece holds at least its first character, so the rest is shorter. -/
def split : List Char → List Piece
  | [] => []
  | c :: cs => first c cs :: split (cs.drop ((first c cs).text.length - 1))
termination_by cs => cs.length
decreasing_by
  simp only [List.length_drop, List.length_cons]
  omega

end Piece

/-- The tokens of a text, closed by a `finish` token at its end. -/
structure Scan where
  tokens : List Token
  reports : Reports

namespace Scan

/-- Every piece with the place where it starts. -/
def placed (p : Position) : List Piece → List (Position × Piece)
  | [] => []
  | piece :: rest => (p, piece) :: placed (p.after piece.text) rest

def token? : Position × Piece → Option Token
  | (p, ⟨text, .token kind literal⟩) => some ⟨kind, String.ofList text, literal, p⟩
  | _ => none

def report? : Position × Piece → Option Report
  | (p, ⟨_, .fault f⟩) => some (.lexical p f)
  | _ => none

def ofChars (source : List Char) : Scan :=
  let pieces := placed .start (Piece.split source)
  { tokens := pieces.filterMap token? ++ [.finish (Position.start.after source)]
    reports := pieces.filterMap report? }

end Scan

def scan (source : String) : Scan :=
  .ofChars source.toList

end Scriptlet
