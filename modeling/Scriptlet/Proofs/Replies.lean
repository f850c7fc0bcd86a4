import Scriptlet.Proofs.Calls
import Scriptlet.Proofs.Safety

/-! What a session replies. A text is read before anything runs; then the machine is called once, and the
reply is made from the answer and from what was reported so far. -/
namespace Scriptlet

def Parsed.query : Parsed → Query
  | .program entries => .run entries
  | .expression e => .evaluate e

namespace Session

namespace Text

def source : Text → String
  | .program source => source
  | .line source => source

def reading : Text → Reading
  | .program source => parse (scan source).tokens
  | .line source => parseLine (scan source).tokens

def reports (text : Text) : Reports :=
  (scan text.source).reports ++ text.reading.reports

end Text

theorem take_eq (rounds : Nat) (text : Text) :
    take rounds text = perform rounds text.reports text.reading.parsed := by
  cases text <;> rfl

def reply (reports : Reports) (parsed : Parsed) : Answer → Reply
  | .value v => ⟨parsed, reports, if reports.isEmpty then some v else none⟩
  | .done => ⟨parsed, reports, none⟩
  | .failed f => ⟨parsed, reports ++ [.runtime f], none⟩

theorem perform_eq (rounds : Nat) (reports : Reports) (parsed : Parsed) (m : Machine) :
    perform rounds reports parsed m =
      match m.answer rounds parsed.query with
      | .ok answer m' => .ok (reply reports parsed answer) m'
      | .error stop m' => .error stop m' := by
  cases parsed with
  | program entries =>
    have unfolded : perform rounds reports (.program entries) m =
        reporting ⟨.program entries, reports, none⟩
          (Machine.run rounds entries >>= fun _ => pure ⟨.program entries, reports, none⟩) m := rfl
    rw [unfolded, reporting, Parsed.query, Machine.answer]
    cases result : Machine.run rounds entries m with
    | ok _ m' => rw [bind_of_ok result]; rfl
    | error stop m' =>
      rw [bind_of_error result]
      cases stop <;> rfl
  | expression e =>
    have unfolded : perform rounds reports (.expression e) m =
        reporting ⟨.expression e, reports, none⟩
          (Machine.evaluate e >>= fun v =>
            pure ⟨.expression e, reports, if reports.isEmpty then some v else none⟩) m := rfl
    rw [unfolded, reporting, Parsed.query, Machine.answer]
    cases result : Machine.evaluate e m with
    | ok v m' => rw [bind_of_ok result]; rfl
    | error stop m' =>
      rw [bind_of_error result]
      cases stop <;> rfl

theorem exists_answer {rounds : Nat} {text : Text} {m m' : Machine} {given : Reply}
    (ends : take rounds text m = .ok given m') :
    ∃ answer, m.answer rounds text.reading.parsed.query = .ok answer m' ∧
      given = reply text.reports text.reading.parsed answer := by
  rw [take_eq, perform_eq] at ends
  split at ends
  · rename_i answer _ result
    obtain ⟨rfl, rfl⟩ := EStateM.Result.ok.inj ends
    exact ⟨answer, result, rfl⟩
  · nomatch ends

theorem takeAll_cons_ends {rounds : Nat} {text : Text} {texts : List Text} {m m' : Machine}
    {replies : List Reply} (ends : takeAll rounds (text :: texts) m = .ok replies m') :
    ∃ first rest between, replies = first :: rest ∧ take rounds text m = .ok first between ∧
      takeAll rounds texts between = .ok rest m' := by
  obtain ⟨first, between, one, ends⟩ := bind_eq_ok_iff.1 ends
  obtain ⟨rest, last, others, ends⟩ := bind_eq_ok_iff.1 ends
  obtain ⟨rfl, rfl⟩ := EStateM.Result.ok.inj ends
  exact ⟨first, rest, between, rfl, one, others⟩

theorem exists_replies (rounds : Nat) {texts : List Text} {m : Machine} {reports : List Reports}
    (shown : (match takeAll rounds texts m with
      | .ok replies _ => some (replies.map Reply.reports)
      | .error _ _ => none) = some reports) :
    ∃ replies m', takeAll rounds texts m = .ok replies m' ∧ replies.map Reply.reports = reports := by
  cases result : takeAll rounds texts m with
  | error stop m' =>
    rw [result] at shown
    nomatch shown
  | ok replies m' =>
    rw [result] at shown
    exact ⟨replies, m', rfl, Option.some.inj shown⟩

end Session

end Scriptlet
