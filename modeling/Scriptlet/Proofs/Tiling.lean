import Scriptlet.Proofs.CursorProgram
import Scriptlet.Proofs.Steady

/-! The entries of a program tile its tokens. Each entry takes at least one token and begins where the
one before it stopped, and the last one stops in front of the first `finish`. -/
namespace Scriptlet

/-- Entries read one after another between two cursors, each from the tokens of its segment. -/
inductive Tiled : Cursor → List (List Token) → List (Option Stmt) → Cursor → Prop
  | nil {c : Cursor} : Tiled c [] [] c
  | cons {c mid last : Cursor} {segment : List Token} {segments : List (List Token)}
      {first : Option Stmt} {rest : List (Option Stmt)} :
      Walk.entry .all c = .value first mid →
      segment = (c.tokens.extract c.current mid.current).toList → segment ≠ [] →
      Tiled mid segments rest last → Tiled c (segment :: segments) (first :: rest) last

theorem Tiled.length_le {c last : Cursor} {segments : List (List Token)}
    {entries : List (Option Stmt)} (tiled : Tiled c segments entries last) :
    entries.length ≤ segments.flatten.length := by
  induction tiled with
  | nil => exact Nat.le_refl 0
  | cons _ _ taken _ ih =>
    have one := List.length_pos_iff.2 taken
    simp only [List.length_cons, List.flatten_cons, List.length_append]
    omega

section Programs

variable {tail : Tail}

theorem extract_cursor (f g : Counters) (passed used rest : List Token) (reports reports' : Reports) :
    ((tail.cursor f passed (used ++ rest) reports).tokens.extract
      (tail.cursor f passed (used ++ rest) reports).current
      (tail.cursor g (passed ++ used) rest reports').current).toList = used := by
  simp [Tail.cursor]

/-- Reading a program entry by entry passes all of its tokens. -/
theorem exists_tiled (passed left : List Token) (reports : Reports) (clean : Clean left) :
    ∃ segments, segments.flatten = left ∧
      Tiled (tail.cursor (.start false) passed left reports) segments
        ((Parser.program left).value.getD [])
        (tail.cursor (.start false) (passed ++ left) []
          (reports ++ (Parser.program left).complaints.map (·.report tail.closing))) := by
  match left with
  | [] =>
    rw [Parser.program_nil]
    refine ⟨[], rfl, ?_⟩
    simp only [List.append_nil, List.map_nil]
    exact .nil
  | t :: left =>
    obtain ⟨used, same, ended⟩ := Tracks.entry (f := .start false) rfl (Walks.all_track tail)
      passed (t :: left) reports clean
    obtain ⟨first, mid, complaints, read, shorter, program⟩ := Parser.program_cons t left
    have top : (Counters.start false).setting = .top := rfl
    rw [top, read] at same ended
    obtain ⟨segments, whole, tiled⟩ := exists_tiled (passed ++ used) mid
      (reports ++ complaints.map (·.report tail.closing)) (clean.rest same)
    obtain ⟨found, rest, complaints', read'⟩ := Parser.unfailing_program.exists_read mid
    have taken : used ≠ [] := by
      rintro rfl
      have lengths := congrArg List.length same
      simp only [List.nil_append, List.length_cons] at lengths
      omega
    have segment : used = ((tail.cursor (.start false) passed (t :: left) reports).tokens.extract
        passed.length (passed ++ used).length).toList := by
      rw [same]
      exact (extract_cursor (.start false) (.start false) passed used mid reports []).symm
    rw [read'] at tiled
    refine ⟨used :: segments, by rw [List.flatten_cons, whole]; exact same.symm, ?_⟩
    rw [program, read', same]
    simp only [Option.map_some, Option.getD_some, List.map_append, ← List.append_assoc] at tiled ⊢
    rw [same] at ended segment
    exact .cons ended segment taken tiled
termination_by left.length

theorem program_ends {ts : List Token} (clean : Clean ts) :
    Walk.program (tail.cursor (.start false) [] ts []) =
      .value (.program ((Parser.program ts).value.getD [])) (tail.cursor (.start false) ts []
        ((Parser.program ts).complaints.map (·.report tail.closing))) := by
  obtain ⟨used, same, ended⟩ := @Ends.program tail ts [] clean
  obtain ⟨found, rest, complaints, read⟩ := Parser.unfailing_program.exists_read ts
  have all := Parser.rest_program ts
  rw [read] at all
  obtain rfl : rest = [] := all
  rw [Parser.map_apply, read] at same ended
  rw [ended, read, show used = ts by simpa using same.symm]
  rfl

theorem findIdx?_finish {ts : List Token} (clean : Clean ts) :
    (ts ++ tail.closing :: tail.later).findIdx? (·.kind = .finish) = some ts.length := by
  have none : ts.findIdx? (·.kind = .finish) = none :=
    List.findIdx?_eq_none_iff.2 fun t member => by simpa using clean t member
  rw [List.findIdx?_append, none]
  simp [List.findIdx?_cons, tail.closed]

end Programs

/-- A program with a lid on the depth of its rules. -/
def Walk.liddedProgram : Walk Parsed := do
  return .program (← entries (.lidded (nestingLimit + 1)) [] (← state).tokens.size)

theorem Walk.steady_program : Walk.program.Steady liddedProgram :=
  Steady.state.bind fun _ => (Steady.entries (Walks.levels_steady _) [] _).bind fun _ => .pure _

/-- Whatever comes before the last token, if that is a `finish`, a program is read up to the first
such token by entries that tile the tokens before it, each from at least one; what comes after that
token changes neither trees nor reports. No rule is begun too deep, and from any cursor entries,
statements, bodies and expressions put the counters back, however they end. -/
theorem program_tiles (tokens : List Token)
    (closed : tokens.getLast?.map Token.kind = some .finish) :
    (∃ segments entries c,
      Walk.program (.start tokens.toArray) = .value (.program entries) c ∧
      Walk.liddedProgram (.start tokens.toArray) = .value (.program entries) c ∧
      parse tokens = ⟨.program entries, c.reports⟩ ∧
      tokens.findIdx? (·.kind = .finish) = some c.current ∧
      Tiled (.start tokens.toArray) segments entries c ∧
      segments.flatten = tokens.take c.current ∧ entries.length ≤ c.current ∧
      ∀ later, parse (tokens.take (c.current + 1) ++ later) = parse tokens ∧
        Settles (Walk.program (.start (tokens.take (c.current + 1) ++ later).toArray))
          (parse tokens)) ∧
    ∀ n c, (Walk.entry (.levels n) c).Restores c ∧ ((Walks.levels n).statement c).Restores c ∧
      (∀ closers, (Walk.body (.levels n) closers c).Restores c) ∧
      ((Walks.levels n).expression c).Restores c := by
  obtain ⟨tail, ts, rfl, clean⟩ := Tail.exists_of_closed closed
  refine ⟨?_, fun n c => ?_⟩
  · obtain ⟨segments, whole, tiled⟩ := @exists_tiled tail [] ts [] clean
    have ended := @program_ends tail ts clean
    have lidded := Walk.steady_program.same (tail.cursor (.start false) [] ts []) (Nat.zero_le _)
    have before : (ts ++ tail.closing :: tail.later).take ts.length = ts := List.take_left
    have bound := tiled.length_le
    rw [whole] at bound
    refine ⟨segments, _, _, ended, lidded.trans ended, parse_append clean, findIdx?_finish clean,
      tiled, whole.trans before.symm, bound, fun later => ?_⟩
    let other : Tail := ⟨tail.closing, later, tail.closed⟩
    have same : parse (ts ++ other.closing :: other.later) =
        parse (ts ++ tail.closing :: tail.later) := by
      rw [parse_append clean, parse_append clean]
    have cut : (ts ++ tail.closing :: tail.later).take (ts.length + 1) ++ later =
        ts ++ other.closing :: other.later := by
      rw [List.append_cons ts, List.take_left' (by simp), ← List.append_cons]
    have settles := @program_settles other ts clean
    rw [← cut] at same settles
    rw [same] at settles
    exact ⟨same, settles⟩
  · have steady := Walks.levels_steady n
    exact ⟨(Walk.Steady.entry steady).restores c, steady.statement.restores c,
      fun closers => (Walk.Steady.body steady closers).restores c, steady.expression.restores c⟩

def cutTokens : List Token :=
  [⟨.printWord, "print", none, ⟨1, 1⟩⟩, ⟨.semicolon, ";", none, ⟨1, 7⟩⟩,
    ⟨.endWord, "end", none, ⟨1, 9⟩⟩, .finish ⟨1, 12⟩, ⟨.breakWord, "break", none, ⟨1, 13⟩⟩,
    .finish ⟨1, 18⟩]

theorem cutTokens_tiled :
    cutTokens.getLast?.map Token.kind = some .finish ∧
      ∃ segments c, Walk.program (.start cutTokens.toArray) = .value (.program [none, none]) c ∧
        c.current = 3 ∧ Tiled (.start cutTokens.toArray) segments [none, none] c ∧
        segments.flatten = cutTokens.take 3 := by
  have closed : cutTokens.getLast?.map Token.kind = some .finish := rfl
  obtain ⟨⟨segments, entries, c, ended, -, read, first, tiled, whole, -⟩, -⟩ :=
    program_tiles cutTokens closed
  have index : c.current = 3 := (Option.some.inj first).symm
  have gaps : entries = [none, none] := (Parsed.program.inj (congrArg Reading.parsed read)).symm
  rw [index] at whole
  subst gaps
  exact ⟨closed, segments, c, ended, index, tiled, whole⟩

end Scriptlet
