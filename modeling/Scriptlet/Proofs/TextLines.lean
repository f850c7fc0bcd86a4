import Scriptlet.Command.Console
import Mathlib.Data.List.Basic

/-! The lines of a text. Input is cut into lines as bytes; the lines of the bytes of a text are the bytes
of its lines, because no byte of a longer character is a newline or a carriage return. -/
namespace Scriptlet

namespace Lines

/-- Takes one carriage return off the end. -/
def chomp (piece : List Char) : List Char :=
  if piece.getLast? = some '\r' then piece.dropLast else piece

/-- The lines of a text cut at its newlines. A newline ended every piece but the last, which is a line
only if it is not empty. -/
def ofPieces : List (List Char) → List (List Char)
  | [] => []
  | [last] => if last.isEmpty then [] else [last]
  | piece :: rest => chomp piece :: ofPieces rest

def ofText (text : String) : List String :=
  (ofPieces (text.toList.splitOn '\n')).map String.ofList

theorem toList_loop (bytes : ByteArray) (i : Nat) (found : List UInt8) :
    ByteArray.toList.loop bytes i found = found.reverse ++ bytes.data.toList.drop i := by
  fun_induction ByteArray.toList.loop bytes i found with
  | case1 i found more ih =>
    have inside : i < bytes.data.toList.length := by simpa using more
    rw [ih, List.drop_eq_getElem_cons inside]
    simp [ByteArray.get!, more]
  | case2 i found done =>
    rw [List.drop_eq_nil_of_le (by simpa using Nat.le_of_not_lt done)]
    simp

theorem toList_eq_data (bytes : ByteArray) : bytes.toList = bytes.data.toList := by
  simp [ByteArray.toList, toList_loop]

def encode (text : List Char) : List UInt8 :=
  text.flatMap String.utf8EncodeChar

@[simp] theorem encode_nil : encode [] = [] := rfl

@[simp] theorem encode_cons (c : Char) (text : List Char) :
    encode (c :: text) = String.utf8EncodeChar c ++ encode text := rfl

theorem toUTF8_ofList (text : List Char) : (String.ofList text).toUTF8.toList = encode text := by
  rw [toList_eq_data, String.toUTF8_eq_toByteArray, String.toByteArray_ofList]
  exact List.toList_data_toByteArray

theorem toNat_of_low {c : Char} {b : UInt8} (low : b.toNat < 128)
    (member : b ∈ String.utf8EncodeChar c) : c.toNat = b.toNat := by
  have wide {n : Nat} (high : 128 ≤ n % 256) : b ≠ UInt8.ofNat n := by
    rintro rfl
    rw [UInt8.toNat_ofNat'] at low
    omega
  unfold String.utf8EncodeChar at member
  dsimp only at member
  split at member
  · rename_i small
    obtain rfl := List.mem_singleton.1 member
    rw [UInt8.toNat_ofNat', Nat.mod_eq_of_lt (by omega)]
    rfl
  · exfalso
    split_ifs at member <;> simp only [List.mem_cons, List.not_mem_nil, or_false] at member
    · rcases member with h | h <;> exact wide (by omega) h
    · rcases member with h | h | h <;> exact wide (by omega) h
    · rcases member with h | h | h | h <;> exact wide (by omega) h

theorem newline_not_mem {c : Char} (other : c ≠ '\n') : newline ∉ String.utf8EncodeChar c :=
  fun member => other (Char.toNat_inj.1 (toNat_of_low (by decide) member))

theorem return_not_mem {c : Char} (other : c ≠ '\r') : carriageReturn ∉ String.utf8EncodeChar c :=
  fun member => other (Char.toNat_inj.1 (toNat_of_low (by decide) member))

def prepend (bytes : List UInt8) : List (List UInt8) → List (List UInt8)
  | [] => [bytes]
  | line :: rest => (bytes ++ line) :: rest

theorem split_newline (bytes : List UInt8) : split (newline :: bytes) = [] :: split bytes := by
  cases bytes <;> simp [split]

theorem split_return (bytes : List UInt8) :
    split (carriageReturn :: newline :: bytes) = [] :: split bytes := by
  simp [split, carriageReturn, newline]

theorem extend_prepend (b : UInt8) (bytes : List UInt8) (lines : List (List UInt8)) :
    extend b (prepend bytes lines) = prepend (b :: bytes) lines := by
  cases lines <;> rfl

theorem split_append {first rest : List UInt8} (some : first ≠ []) (inside : newline ∉ first)
    (apart : carriageReturn ∈ first → rest.head? ≠ Option.some newline) :
    split (first ++ rest) = prepend first (split rest) := by
  induction first with
  | nil => exact absurd rfl some
  | cons b first ih =>
    obtain ⟨plain, inside⟩ := not_or.1 (mt List.mem_cons.2 inside)
    have plain : b ≠ newline := fun h => plain h.symm
    have go {c : UInt8} {bytes : List UInt8} (h : b = carriageReturn → c ≠ newline) :
        split (b :: c :: bytes) = extend b (split (c :: bytes)) := by
      rw [split, if_neg plain, if_neg fun both => h both.1 both.2]
    match first, rest with
    | [], [] => simp [split, plain, prepend]
    | [], c :: bytes =>
      rw [List.singleton_append, go fun h => by simpa [h] using apart]
      cases split (c :: bytes) <;> rfl
    | c :: first, rest =>
      have tail : split (c :: first ++ rest) = prepend (c :: first) (split rest) :=
        ih (by simp) inside fun member => apart (List.mem_cons_of_mem _ member)
      rw [List.cons_append, List.cons_append, go fun _ h => inside (by simp [h]),
        ← List.cons_append, tail, extend_prepend]

theorem chomp_cons {c : Char} {piece : List Char} (other : piece = [] → c ≠ '\r') :
    chomp (c :: piece) = c :: chomp piece := by
  cases piece with
  | nil => simp [chomp, other rfl]
  | cons d piece =>
    simp only [chomp, List.getLast?_cons_cons, List.dropLast_cons_cons]
    split <;> rfl

theorem ofPieces_cons {piece : List Char} {rest : List (List Char)} (some : rest ≠ []) :
    ofPieces (piece :: rest) = chomp piece :: ofPieces rest := by
  cases rest with
  | nil => exact absurd rfl some
  | cons => rfl

theorem ofPieces_modifyHead {c : Char} {text : List Char}
    (apart : c = '\r' → text.head? ≠ some '\n') :
    (ofPieces ((text.splitOn '\n').modifyHead (c :: ·))).map encode =
      prepend (String.utf8EncodeChar c) ((ofPieces (text.splitOn '\n')).map encode) := by
  obtain ⟨piece, rest, pieces⟩ := List.exists_cons_of_ne_nil (List.splitOn_ne_nil '\n' text)
  rw [pieces, List.modifyHead_cons]
  cases rest with
  | nil => cases piece <;> simp [ofPieces, prepend]
  | cons next rest =>
    have more : next :: rest ≠ [] := List.cons_ne_nil next rest
    have other : piece = [] → c ≠ '\r' := by
      rintro rfl rfl
      cases text with
      | nil => simp at pieces
      | cons d text =>
        rw [List.splitOn_cons_eq_if_modifyHead] at pieces
        split at pieces
        · rename_i ends
          exact apart rfl (by simpa using ends)
        · cases further : text.splitOn '\n' <;> simp [further] at pieces
    rw [ofPieces_cons more, @ofPieces_cons piece _ more, chomp_cons other]
    rfl

theorem head_encode {text : List Char} (starts : (encode text).head? = some newline) :
    text.head? = some '\n' := by
  cases text with
  | nil => simp at starts
  | cons c text =>
    by_contra other
    have member : newline ∈ String.utf8EncodeChar c := by
      rw [encode_cons, List.head?_append_of_ne_nil _ String.utf8EncodeChar_ne_nil] at starts
      exact List.mem_of_mem_head? starts
    exact newline_not_mem (by simpa using other) member

/-- The lines of a text are the same whether it is cut as characters or as bytes. -/
theorem split_encode (text : List Char) :
    split (encode text) = (ofPieces (text.splitOn '\n')).map encode := by
  induction text with
  | nil => rfl
  | cons c text ih =>
    rw [List.splitOn_cons_eq_if_modifyHead]
    by_cases ends : c = '\n'
    · subst ends
      rw [if_pos (by decide), ofPieces_cons (List.splitOn_ne_nil _ _), List.map_cons, ← ih]
      exact split_newline _
    rw [if_neg (by simpa using ends)]
    by_cases apart : c = '\r' → text.head? ≠ some '\n'
    · rw [ofPieces_modifyHead apart, ← ih, encode_cons]
      refine split_append String.utf8EncodeChar_ne_nil (newline_not_mem ends) fun member starts => ?_
      by_cases returns : c = '\r'
      · exact apart returns (head_encode starts)
      · exact return_not_mem returns member
    · -- the carriage return goes with the newline, so the line is that of the newline alone
      obtain ⟨rfl, starts⟩ := Classical.not_imp.1 apart
      obtain ⟨more, rfl⟩ : ∃ more, text = '\n' :: more := by
        cases text <;> simp_all
      rw [List.splitOn_cons_eq_if_modifyHead, if_pos (by decide)] at ih ⊢
      rw [List.modifyHead_cons, ofPieces_cons (List.splitOn_ne_nil _ _)] at *
      exact (split_return _).trans ((split_newline _).symm.trans ih)

theorem split_toUTF8 (text : String) :
    split text.toUTF8.toList = (ofText text).map fun line => line.toUTF8.toList := by
  conv => lhs; rw [← String.ofList_toList (s := text)]
  rw [toUTF8_ofList, split_encode, ofText, List.map_map]
  exact List.map_congr_left fun line _ => (toUTF8_ofList line).symm

theorem newline_not_mem_pieces (text : List Char) : ∀ piece ∈ text.splitOn '\n', '\n' ∉ piece := by
  induction text with
  | nil => simp
  | cons c text ih =>
    rw [List.splitOn_cons_eq_if_modifyHead]
    split
    · simpa using ih
    · rename_i other
      obtain ⟨piece, rest, pieces⟩ := List.exists_cons_of_ne_nil (List.splitOn_ne_nil '\n' text)
      rw [pieces] at ih ⊢
      have other : '\n' ≠ c := fun h => other (by simp [← h])
      simpa [other] using ih

theorem mem_of_mem_ofPieces {c : Char} {pieces : List (List Char)} {line : List Char}
    (member : line ∈ ofPieces pieces) (inside : c ∈ line) : ∃ piece ∈ pieces, c ∈ piece := by
  fun_induction ofPieces pieces with
  | case1 => simp at member
  | case2 last empty => simp at member
  | case3 last _ => exact ⟨last, by simp, by simp_all⟩
  | case4 piece rest _ ih =>
    obtain rfl | member := List.mem_cons.1 member
    · refine ⟨piece, by simp, ?_⟩
      unfold chomp at inside
      split at inside
      · exact (List.dropLast_sublist piece).subset inside
      · exact inside
    · obtain ⟨piece, among, holds⟩ := ih member
      exact ⟨piece, List.mem_cons_of_mem _ among, holds⟩

theorem single_of_mem_ofText {text line : String} (member : line ∈ ofText text) :
    '\n' ∉ line.toList := by
  obtain ⟨characters, among, rfl⟩ := List.mem_map.1 member
  rw [String.toList_ofList]
  intro inside
  obtain ⟨piece, among, inside⟩ := mem_of_mem_ofPieces among inside
  exact newline_not_mem_pieces _ piece among inside

end Lines

namespace Console

theorem decode_toUTF8 (text : String) : decode ⟨text.toUTF8.toList.toArray⟩ = .ok text := by
  have valid : text.toUTF8.IsValidUTF8 := text.isValidUTF8
  rw [Lines.toList_eq_data, Array.toArray_toList, decode, String.fromUTF8?, dif_pos valid]
  rfl

end Console

end Scriptlet
