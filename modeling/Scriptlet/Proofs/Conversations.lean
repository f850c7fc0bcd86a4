import Scriptlet.Proofs.Pieces
import Scriptlet.Proofs.Results
import Scriptlet.Proofs.TextLines

/-! Conversations. A blank line is passed over, and all that is lost are the reports on white space that
is no blank to the scanner. -/
namespace Scriptlet

theorem isWhiteSpace_of_ofChar {c : Char} {kind : Kind} (mark : Kind.ofChar c = some kind) :
    isWhiteSpace c = false := by
  unfold Kind.ofChar at mark
  split at mark <;> first | rfl | nomatch mark

theorem isWhiteSpace_of_ofPair {c d : Char} {kind : Kind} (mark : Kind.ofPair c d = some kind) :
    isWhiteSpace c = false := by
  unfold Kind.ofPair at mark
  split at mark <;> first | rfl | nomatch mark

theorem isWhiteSpace_of_isNameRest {c : Char} (word : Piece.isNameRest c) :
    isWhiteSpace c = false := by
  have bounds : 48 ≤ c.toNat ∧ c.toNat ≤ 122 := by
    have word : (decide (c.val ≥ 'A'.val ∧ c.val ≤ 'Z'.val) ||
        (decide (c.val ≥ 'a'.val) && decide (c.val ≤ 'z'.val)) || c == '_' ||
        (decide (c.val ≥ '0'.val) && decide (c.val ≤ '9'.val))) = true := word
    simp only [Bool.or_eq_true, Bool.and_eq_true, decide_eq_true_eq, beq_iff_eq, ge_iff_le,
      UInt32.le_iff_toNat_le, Char.toNat_val] at word
    rcases word with ((h | h) | rfl) | h
    · simp at h
      omega
    · simp at h
      omega
    · decide
    · simp at h
      omega
  simp only [isWhiteSpace, whiteSpace, List.any_cons, List.any_nil, Bool.or_false,
    Bool.or_eq_false_iff, Bool.and_eq_false_iff, decide_eq_false_iff_not]
  omega

namespace Piece

def ofWhiteSpace (c : Char) : Piece :=
  ⟨[c], if isBlank c then .blank else .fault .unexpectedCharacter⟩

theorem first_whiteSpace {c : Char} (white : isWhiteSpace c) (cs : List Char) :
    first c cs = ofWhiteSpace c := by
  have unlike {d : Char} (other : isWhiteSpace d = false) : c ≠ d := by
    rintro rfl
    simp [white] at other
  have mark : Kind.ofChar c = none :=
    Option.eq_none_iff_forall_ne_some.2 fun kind mark => by
      simp [isWhiteSpace_of_ofChar mark] at white
  have pair (d : Char) : Kind.ofPair c d = none :=
    Option.eq_none_iff_forall_ne_some.2 fun kind mark => by
      simp [isWhiteSpace_of_ofPair mark] at white
  have word : isNameRest c = false := by
    by_contra word
    simp [isWhiteSpace_of_isNameRest (by simpa using word)] at white
  obtain ⟨start, digit⟩ := Bool.or_eq_false_iff.1 word
  have alone : cs.head?.bind (Kind.ofPair c) = none := by
    cases cs <;> simp [pair]
  rw [first_plain (unlike rfl) fun h => absurd h (unlike rfl), ofWhiteSpace, markAt, alone, mark, start,
    digit]
  cases isBlank c <;> rfl

theorem split_whiteSpace {line : List Char} (white : line.all isWhiteSpace) :
    split line = line.map ofWhiteSpace := by
  induction line with
  | nil => simp [split]
  | cons c line ih =>
    obtain ⟨first, rest⟩ := Bool.and_eq_true_iff.1 (List.all_cons.symm.trans white)
    rw [split, first_whiteSpace first, List.map_cons]
    exact congrArg _ (ih rest)

end Piece

namespace Scan

def strays (line : List Char) : Reports :=
  line.zipIdx.filterMap fun (c, i) =>
    if Piece.isBlank c then none else some (.lexical ⟨1, i + 1⟩ .unexpectedCharacter)

theorem reports_whiteSpace {line : List Char} (single : '\n' ∉ line) (i : Nat) :
    (placed ⟨1, i + 1⟩ (line.map Piece.ofWhiteSpace)).filterMap report? =
      (line.zipIdx i).filterMap fun (c, i) =>
        if Piece.isBlank c then none else some (.lexical ⟨1, i + 1⟩ .unexpectedCharacter) := by
  induction line generalizing i with
  | nil => rfl
  | cons c line ih =>
    obtain ⟨other, single⟩ := not_or.1 (mt List.mem_cons.2 single)
    have next : Position.after ⟨1, i + 1⟩ (Piece.ofWhiteSpace c).text = ⟨1, i + 1 + 1⟩ := by
      simp [Piece.ofWhiteSpace, Position.next, Ne.symm other]
    rw [List.map_cons, placed, next, List.zipIdx_cons, List.filterMap_cons, List.filterMap_cons, ih single]
    cases blank : Piece.isBlank c <;> simp [Piece.ofWhiteSpace, report?, blank]

theorem strays_eq_nil {line : List Char} (blank : ∀ c ∈ line, c ∈ [' ', '\t', '\r']) :
    strays line = [] := by
  rw [strays, List.filterMap_eq_nil_iff]
  rintro ⟨c, i⟩ member
  have holds : Piece.isBlank c := by
    have := blank c (List.fst_mem_of_mem_zipIdx member)
    simp only [List.mem_cons, List.not_mem_nil, or_false] at this
    rcases this with rfl | rfl | rfl <;> rfl
  simp [holds]

theorem tokens_whiteSpace (p : Position) (line : List Char) :
    (placed p (line.map Piece.ofWhiteSpace)).filterMap token? = [] := by
  induction line generalizing p with
  | nil => rfl
  | cons c line ih =>
    rw [List.map_cons, placed, List.filterMap_cons_none, ih]
    cases blank : Piece.isBlank c <;> simp [Piece.ofWhiteSpace, token?, blank]

theorem ofChars_whiteSpace {line : List Char} (white : line.all isWhiteSpace) (single : '\n' ∉ line) :
    ofChars line = ⟨[.finish (Position.start.after line)], strays line⟩ := by
  rw [ofChars, Piece.split_whiteSpace white, tokens_whiteSpace, List.nil_append]
  exact congrArg _ (reports_whiteSpace single 0)

end Scan

theorem runLine_whiteSpace (rounds : Nat) {line : String} (white : isBlankLine line)
    (single : '\n' ∉ line.toList) (m : Machine) :
    Session.runLine rounds line m = .ok ⟨.program [], Scan.strays line.toList, none⟩ m := by
  have scanned : scan line = _ := Scan.ofChars_whiteSpace white single
  have reading : parseLine (scan line).tokens = ⟨.program [], []⟩ := by
    rw [scanned]
    rfl
  rw [Session.runLine, reading, scanned, List.append_nil]
  rfl

namespace Console

/-- Runs a line, blank or not. Its reports are shown if `shown` holds of it. -/
def respond (rounds : Nat) (trees : Bool) (shown : String → Bool) (line : String) : Action Unit := do
  let reply ← perform ⟨false, trees⟩ (Session.runLine rounds line)
  match reply.echo with
  | some v => say (v.text ++ "\n")
  | none => pure ()
  if shown line then showReports ⟨false, trees⟩ reply.reports

def respondAll (rounds : Nat) (trees : Bool) (shown : String → Bool) : List String → Action UInt32
  | [] => do
    say "> "
    say "\n"
    return ExitCode.success
  | line :: rest => do
    say "> "
    respond rounds trees shown line
    respondAll rounds trees shown rest

theorem turn_toUTF8 (rounds : Nat) (d : Display) (text : String) :
    turn rounds d text.toUTF8.toList = do
      answer rounds d text
      return none := by
  rw [turn, decode_toUTF8]

theorem respond_whiteSpace (rounds : Nat) (trees : Bool) (shown : String → Bool) {line : String}
    (white : isBlankLine line) (single : '\n' ∉ line.toList) :
    respond rounds trees shown line =
      if shown line then showReports ⟨false, trees⟩ (Scan.strays line.toList) else pure () := by
  funext c
  have performed : perform ⟨false, trees⟩ (Session.runLine rounds line) c =
      .ok ⟨.program [], Scan.strays line.toList, none⟩ c := by
    rw [perform]
    cases trees <;> simp [bind, EStateM.bind, runLine_whiteSpace rounds white single, showTrees,
      treeTexts] <;> rfl
  rw [respond, bind_of_ok performed]

theorem answer_eq_respond (rounds : Nat) (trees : Bool) {line : String} (single : '\n' ∉ line.toList) :
    answer rounds ⟨false, trees⟩ line = respond rounds trees (fun l => !isBlankLine l) line := by
  cases white : isBlankLine line with
  | true =>
    rw [respond_whiteSpace _ _ _ white single]
    simp [answer, white]
  | false =>
    simp only [answer, respond, white, Style.paint]
    rfl

/-- A conversation is one in which every line is run and the reports on blank lines are kept back. -/
theorem converse_eq_respondAll (rounds : Nat) (trees : Bool) {lines : List String}
    (single : ∀ line ∈ lines, '\n' ∉ line.toList) :
    converse rounds ⟨false, trees⟩ (lines.map fun line => line.toUTF8.toList) =
      respondAll rounds trees (fun line => !isBlankLine line) lines := by
  induction lines with
  | nil => rfl
  | cons line rest ih =>
    have further := ih fun l member => single l (List.mem_cons_of_mem _ member)
    rw [List.map_cons, converse, respondAll, turn_toUTF8, answer_eq_respond _ _ (single line (by simp))]
    simp only [prompt, bind_assoc, pure_bind, further]

theorem respondAll_congr (rounds : Nat) (trees : Bool) {shown shown' : String → Bool} {lines : List String}
    (agree : ∀ line ∈ lines, respond rounds trees shown line = respond rounds trees shown' line) :
    respondAll rounds trees shown lines = respondAll rounds trees shown' lines := by
  induction lines with
  | nil => rfl
  | cons line rest ih =>
    rw [respondAll, respondAll, agree line (by simp),
      ih fun l member => agree l (List.mem_cons_of_mem _ member)]

def standing {α : Type} : EStateM.Result Stop Console α → Except Stop α × Machine
  | .ok a c => (.ok a, c.machine)
  | .error stop c => (.error stop, c.machine)

def errorsAfter {α : Type} : EStateM.Result Stop Console α → String
  | .ok _ c => c.errors
  | .error _ c => c.errors

/-- The actions differ in their errors at most, whatever the errors before them. -/
def Akin {α : Type} (x y : Action α) : Prop :=
  ∀ c d, c.machine = d.machine → standing (x c) = standing (y d)

namespace Akin

variable {α β : Type} {x y : Action α}

theorem bind {f g : α → Action β} (first : Akin x y) (rest : ∀ a, Akin (f a) (g a)) :
    Akin (x >>= f) (y >>= g) := by
  intro c d same
  have one := first c d same
  cases left : x c <;> cases right : y d <;> rw [left, right] at one <;>
    simp only [standing, Prod.mk.injEq, Except.ok.injEq, Except.error.injEq, reduceCtorEq, false_and]
      at one
  · obtain ⟨rfl, machine⟩ := one
    rw [bind_of_ok left, bind_of_ok right]
    exact rest _ _ _ machine
  · obtain ⟨rfl, machine⟩ := one
    rw [bind_of_error left, bind_of_error right]
    exact congrArg (Prod.mk (Except.error _)) machine

theorem pure (a : α) : Akin (Pure.pure a) (Pure.pure a) :=
  fun _ _ same => congrArg (Prod.mk (Except.ok a)) same

theorem say (text : String) : Akin (say text) (say text) :=
  fun _ _ same =>
    congrArg (fun m : Machine => (Except.ok (), { m with sink := m.sink.write text.toUTF8 })) same

theorem forM_complain {γ : Type} (texts : List γ) (f : γ → String) :
    Akin (texts.forM fun t => complain (f t)) (Pure.pure ()) := by
  induction texts with
  | nil => exact pure ()
  | cons t texts ih => exact fun c d same => ih _ d same

theorem symm (same : Akin x y) : Akin y x :=
  fun c d h => (same d c h.symm).symm

theorem trans {z : Action α} (first : Akin x y) (second : Akin y z) : Akin x z :=
  fun c d h => (first c d h).trans (second d d rfl)

theorem showReports (d : Display) (reports : Reports) :
    Akin (showReports d reports) (Pure.pure ()) :=
  forM_complain reports _

theorem perform (d : Display) (call : Call Reply) : Akin (perform d call) (perform d call) := by
  refine bind ?_ fun reply => bind ?_ fun _ => pure reply
  · intro c d same
    dsimp only
    rw [same]
    cases call d.machine <;> rfl
  · unfold showTrees
    split
    · exact (forM_complain _ _).trans (forM_complain _ _).symm
    · exact pure ()

theorem respond (rounds : Nat) (trees : Bool) (shown shown' : String → Bool) (line : String) :
    Akin (respond rounds trees shown line) (respond rounds trees shown' line) := by
  have quiet (b : Bool) (reports : Reports) :
      Akin (if b then Console.showReports ⟨false, trees⟩ reports else Pure.pure ()) (Pure.pure ()) := by
    split
    · exact showReports _ reports
    · exact pure ()
  have same (reports : Reports) := (quiet (shown line) reports).trans (quiet (shown' line) reports).symm
  refine bind (perform _ _) fun reply => ?_
  cases reply.echo with
  | some v => exact bind (say _) fun _ => same reply.reports
  | none => exact same reply.reports

theorem respondAll (rounds : Nat) (trees : Bool) (shown shown' : String → Bool) (lines : List String) :
    Akin (respondAll rounds trees shown lines) (respondAll rounds trees shown' lines) := by
  induction lines with
  | nil => exact bind (say _) fun _ => bind (say _) fun _ => pure _
  | cons line rest ih => exact bind (say _) fun _ => bind (respond rounds trees shown shown' line) fun _ => ih

end Akin

end Console

namespace Request

open Console

/-- An interactive command runs every line of its input and does to the machine, and answers, what running
every line does, blank lines included. It does not show the reports on blank lines. These are one for each
character that is no space, tab or carriage return, so nothing is kept back where there are no others. -/
theorem prompt_runs_lines (rounds : Nat) (file : String → Except ReadError ByteArray) (trees : Bool)
    (input : String) (c : Console) :
    let result := act rounds ⟨file, input.toUTF8, false⟩ ⟨.prompt, trees⟩ c
    let lines := Lines.ofText input
    let all := respondAll rounds trees (fun _ => true) lines c
    standing result = standing all ∧
      result = respondAll rounds trees (fun line => !isBlankLine line) lines c ∧
      (∀ line ∈ lines, isBlankLine line → ∀ m, Session.runLine rounds line m =
        .ok ⟨.program [], Scan.strays line.toList, none⟩ m) ∧
      ((∀ line ∈ lines, isBlankLine line → ∀ x ∈ line.toList, x ∈ [' ', '\t', '\r']) → result = all) := by
  intro result lines all
  have single : ∀ line ∈ lines, '\n' ∉ line.toList := fun _ => Lines.single_of_mem_ofText
  have same : result = respondAll rounds trees (fun line => !isBlankLine line) lines c := by
    rw [← converse_eq_respondAll rounds trees single, ← Lines.split_toUTF8]
    rfl
  refine ⟨?_, same, fun line member white m => runLine_whiteSpace rounds white (single line member) m, ?_⟩
  · rw [same]
    exact Akin.respondAll rounds trees _ _ lines c c rfl
  · intro plain
    rw [same]
    refine congrFun (respondAll_congr rounds trees fun line member => ?_) c
    cases white : isBlankLine line with
    | false => simp [respond, white]
    | true =>
      have silent : Scan.strays line.toList = [] := Scan.strays_eq_nil (plain line member white)
      rw [respond_whiteSpace _ _ _ white (single line member),
        respond_whiteSpace _ _ _ white (single line member), silent]
      simp [white, showReports]

theorem prompt_passes_blanks :
    (∀ line ∈ Lines.ofText "let a = 2;\n\t \r\n\na", isBlankLine line →
      ∀ x ∈ line.toList, x ∈ [' ', '\t', '\r']) ∧
    act 1 ⟨fun _ => .error .missing, "let a = 2;\n\t \r\n\na".toUTF8, false⟩ ⟨.prompt, false⟩ .start =
      respondAll 1 false (fun _ => true) ["let a = 2;", "\t ", "", "a"] .start := by
  have lines : Lines.ofText "let a = 2;\n\t \r\n\na" = ["let a = 2;", "\t ", "", "a"] := by decide +kernel
  have plain : ∀ line ∈ Lines.ofText "let a = 2;\n\t \r\n\na", isBlankLine line →
      ∀ x ∈ line.toList, x ∈ [' ', '\t', '\r'] := by
    simp [lines, isBlankLine, isWhiteSpace, whiteSpace]
  refine ⟨plain, ?_⟩
  rw [← lines]
  exact (prompt_runs_lines 1 _ false _ .start).2.2.2 plain

/-- A line of a no-break space would be reported if it were run like any other. -/
theorem prompt_hides_report :
    ¬ ∀ (rounds : Nat) (file : String → Except ReadError ByteArray) (trees : Bool) (input : String)
      (c : Console), errorsAfter (act rounds ⟨file, input.toUTF8, false⟩ ⟨.prompt, trees⟩ c) =
        errorsAfter (respondAll rounds trees (fun _ => true) (Lines.ofText input) c) := by
  intro always
  have same := always 1 (fun _ => .error .missing) false "\u00a0\n" .start
  exact absurd same (by decide +kernel)

end Request
end Scriptlet
