import Scriptlet.Proofs.Runner

/-! Output that is full. A run with a limit to its output goes the way of the run without one up to the
print that goes over the limit. There it stops with what fits, and what was begun is closed; nothing
else happens, and the variables are those that the other run had at that print. -/
namespace Scriptlet

theorem extract_of_size_le {b : ByteArray} {count : Nat} (enough : b.size ≤ count) :
    b.extract 0 count = b := by
  rw [← Nat.max_eq_left enough]
  exact ByteArray.extract_zero_max_size

theorem extract_append_of_le {a b : ByteArray} {count : Nat} (fewer : count ≤ a.size) :
    (a ++ b).extract 0 count = a.extract 0 count := by
  have none : b.extract (0 - a.size) (count - a.size) = .empty := by
    rw [ByteArray.extract_eq_empty_iff]
    omega
  rw [ByteArray.extract_append, none, ByteArray.append_empty]

namespace Event

def bytes : List Event → ByteArray
  | [] => .empty
  | .begins _ :: rest => bytes rest
  | .prints _ line _ :: rest => line ++ bytes rest

theorem bytes_append (first second : List Event) :
    bytes (first ++ second) = bytes first ++ bytes second := by
  induction first with
  | nil => exact ByteArray.empty_append.symm
  | cons event rest ih =>
    cases event with
    | begins s => exact ih
    | prints keyword line store =>
      rw [List.cons_append, bytes, bytes, ih, ByteArray.append_assoc]

theorem extract_bytes (before after : List Event) (keyword : Token) {line : ByteArray}
    (store : Store) {k : Nat} (starts : (bytes before).size ≤ k)
    (exceeds : k ≤ (bytes before).size + line.size) :
    (bytes (before ++ .prints keyword line store :: after)).extract 0 k =
      bytes before ++ line.extract 0 (k - (bytes before).size) := by
  rw [bytes_append, bytes, ByteArray.extract_append, extract_of_size_le starts, Nat.zero_sub,
    extract_append_of_le (by omega)]

end Event

open Event (bytes)

namespace Store

theorem truncate_truncate (s : Store) {count more : Nat} (fewer : count ≤ more) :
    (s.truncate more).truncate count = s.truncate count := by
  refine congrArg Store.mk (Array.ext_getElem? fun id => ?_)
  have outer := getElem?_truncate (s.truncate more) count id
  have inner := getElem?_truncate s more id
  have once := getElem?_truncate s count id
  refine outer.trans (Eq.trans ?_ once.symm)
  split
  · exact inner.trans (if_pos (by omega))
  · rfl

theorem truncate_size (s : Store) : s.truncate s.size = s := by
  obtain ⟨scopes⟩ := s
  refine congrArg Store.mk (Array.ext_getElem? fun id => ?_)
  refine (getElem?_truncate ⟨scopes⟩ scopes.size id).trans ?_
  split
  · rfl
  · exact (Array.getElem?_eq_none (by omega)).symm

end Store

namespace Runner

variable {α β : Type}

def written (r : Runner) : ByteArray :=
  r.machine.sink.written

def limited (limit : Option Nat) (r : Runner) : Runner :=
  { r with machine := { r.machine with sink := { r.machine.sink with limit } } }

def limitedEnd {ε : Type} (limit : Option Nat) :
    EStateM.Result ε Runner α → EStateM.Result ε Runner α
  | .ok a r => .ok a (r.limited limit)
  | .error e r => .error e (r.limited limit)

/-- From one runner to another through these events, without a limit. -/
structure Goes (r : Runner) (events : List Event) (r' : Runner) : Prop where
  current : r'.current = r.current
  size : r'.machine.store.size = r.machine.store.size
  journal : r'.journal = r.journal ++ events
  sink : r'.machine.sink = ⟨r.written ++ bytes events, none⟩

theorem Goes.written_eq {r r' : Runner} {events : List Event} (goes : r.Goes events r') :
    r'.written = r.written ++ bytes events := by
  rw [written, goes.sink]

theorem Goes.trans {r r' r'' : Runner} {events further : List Event} (first : r.Goes events r')
    (second : r'.Goes further r'') : r.Goes (events ++ further) r'' where
  current := second.current.trans first.current
  size := second.size.trans first.size
  journal := by rw [second.journal, first.journal, List.append_assoc]
  sink := by
    rw [second.sink, first.written_eq, Event.bytes_append, ByteArray.append_assoc]

def full (r : Runner) (limit : Nat) (before : List Event) (keyword : Token) (line : ByteArray)
    (store : Store) : Runner where
  machine :=
    { store := store.truncate r.machine.store.size
      sink := ⟨r.written ++ bytes before ++
        line.extract 0 (limit - (r.written ++ bytes before).size), some limit⟩ }
  current := r.current
  journal := r.journal ++ before ++ [.prints keyword line store]

theorem Goes.closed {r r' : Runner} {events : List Event} (goes : r.opened.Goes events r') :
    r.Goes events (r.closed r') where
  current := rfl
  size := Store.size_truncate <| by
    have opened : r.opened.machine.store.size = r.machine.store.size + 1 := Store.size_add _ _
    rw [goes.size, opened]
    exact Nat.le_succ _
  journal := goes.journal
  sink := goes.sink

theorem closed_full (r : Runner) (limit : Nat) (before : List Event) (keyword : Token)
    (line : ByteArray) (store : Store) :
    (r.limited (some limit)).closed (r.opened.full limit before keyword line store) =
      r.full limit before keyword line store := by
  have opened : r.opened.machine.store.size = r.machine.store.size + 1 := Store.size_add _ _
  have once := store.truncate_truncate (Nat.le_succ r.machine.store.size)
  simp only [closed, full, opened, limited, once]
  rfl

/-- What happens where the output is full before all of these events. -/
inductive Halts (limit : Nat) (r : Runner) (events : List Event) :
    EStateM.Result Exit Runner α → Prop
  | short (before : List Event) {keyword : Token} {line : ByteArray} {store : Store}
      (after : List Event) : events = before ++ .prints keyword line store :: after →
      (r.written ++ bytes before).size ≤ limit →
      limit < (r.written ++ bytes before).size + line.size →
      Halts limit r events (.error (.stop (.failure ⟨keyword, .output "sink full"⟩))
        (r.full limit before keyword line store))

theorem Halts.after {r r' : Runner} {events further : List Event} {limit : Nat}
    {result : EStateM.Result Exit Runner α} (goes : r.Goes events r')
    (halts : Halts limit r' further result) : Halts limit r (events ++ further) result := by
  cases halts with
  | short before after split starts exceeds =>
    have total : r'.written ++ bytes before = r.written ++ bytes (events ++ before) := by
      rw [goes.written_eq, Event.bytes_append, ByteArray.append_assoc]
    rw [total] at starts exceeds
    rw [full, total, goes.current, goes.size, goes.journal, List.append_assoc r.journal]
    exact .short (events ++ before) after (by rw [split, List.append_assoc]) starts exceeds

/-- What a computation does without a limit, with room enough, and with less. -/
structure Cut (x : Running α) (r : Runner) (events : List Event) : Prop where
  goes : r.Goes events (final (x r))
  fits : ∀ limit, (r.written ++ bytes events).size ≤ limit →
    x (r.limited (some limit)) = limitedEnd (some limit) (x r)
  halts : ∀ limit, r.written.size ≤ limit → limit < (r.written ++ bytes events).size →
    Halts limit r events (x (r.limited (some limit)))

def Cuts (x : Running α) : Prop :=
  ∀ r, r.machine.sink.limit = none → ∃ events, Cut x r events

theorem sink_eq {r : Runner} (unlimited : r.machine.sink.limit = none) :
    r.machine.sink = ⟨r.written ++ .empty, none⟩ := by
  rw [ByteArray.append_empty, ← unlimited]
  rfl

def ending (r : Runner) : EStateM.Result Exit Store α → EStateM.Result Exit Runner α
  | .ok a store => .ok a { r with machine := { r.machine with store } }
  | .error exit store => .error exit { r with machine := { r.machine with store } }

def raised : EStateM.Result Stop Store α → EStateM.Result Exit Store α
  | .ok a store => .ok a store
  | .error stop store => .error (.stop stop) store

def either (x : Running α) (f : α → Running β) (g : Exit → Running β) : Running β :=
  fun r =>
    match x r with
    | .ok a r' => f a r'
    | .error exit r' => g exit r'

def printed (keyword : Token) (line : ByteArray) (r : Runner) : Runner :=
  { r with
    machine := { r.machine with sink := r.machine.sink.write line }
    journal := r.journal ++ [.prints keyword line r.machine.store] }

theorem print_apply (keyword : Token) (v : Value) (r : Runner) :
    print keyword v r =
      if r.machine.sink.fits (Reference.line v) then .ok () (r.printed keyword (Reference.line v))
      else .error (.stop (.failure ⟨keyword, .output "sink full"⟩))
        (r.printed keyword (Reference.line v)) := by
  have noted : print keyword v r = here (fun _ => Execution.print keyword v) { r with
      journal := r.journal ++ [.prints keyword (Reference.line v) r.machine.store] } := rfl
  rw [noted, here, Execution.print_apply]
  dsimp only
  cases r.machine.sink.fits (Reference.line v) <;> rfl

namespace Cuts

theorem quiet {x : Running α} (result : Runner → EStateM.Result Exit Store α)
    (size : ∀ r, (final (result r)).size = r.machine.store.size)
    (limit : ∀ r limit, result (r.limited limit) = result r)
    (same : ∀ r, x r = r.ending (result r)) : Cuts x := by
  intro r unlimited
  refine ⟨[], ?_, fun bound room => ?_, fun bound room beyond => ?_⟩
  · have sized := size r
    rw [same r]
    cases ends : result r <;>
      · rw [ends] at sized
        exact ⟨rfl, sized, (List.append_nil _).symm, sink_eq unlimited⟩
  · rw [same, same, limit]
    cases result r <;> rfl
  · rw [bytes, ByteArray.append_empty] at beyond
    exact absurd room (Nat.not_le_of_lt beyond)

theorem pure (a : α) : Cuts (Pure.pure a) :=
  quiet (fun r => .ok a r.machine.store) (fun _ => rfl) (fun _ _ => rfl) fun _ => rfl

theorem throw (exit : Exit) : Cuts (MonadExcept.throw exit : Running α) :=
  quiet (fun r => .error exit r.machine.store) (fun _ => rfl) (fun _ _ => rfl) fun _ => rfl

theorem define (name : Token) (v : Value) : Cuts (define name v) :=
  quiet (fun r => .ok () (r.machine.store.define r.current name.lexeme v))
    (fun r => Store.size_define r.machine.store r.current name.lexeme v) (fun _ _ => rfl)
    fun _ => rfl

theorem eval (e : Expr) : Cuts (eval e) := by
  refine quiet (fun r => raised (e.eval r.current r.machine.store)) (fun r => ?_) (fun _ _ => rfl)
    fun r => ?_
  · have framed := Expr.eval_framed r.current (List.Subset.refl e.targets) r.machine.store
    generalize e.eval r.current r.machine.store = result at framed
    cases result <;> exact framed.size
  · rw [Runner.eval, here, Execution.eval]
    cases e.eval r.current r.machine.store <;> rfl

theorem note (s : Stmt) : Cuts (note (.begins s)) := by
  intro r unlimited
  refine ⟨[.begins s], ⟨rfl, rfl, rfl, sink_eq unlimited⟩, fun limit room => rfl,
    fun limit room beyond => ?_⟩
  rw [bytes, bytes, ByteArray.append_empty] at beyond
  exact absurd room (Nat.not_le_of_lt beyond)

/-- The only place where a limit matters. -/
theorem print (keyword : Token) (v : Value) : Cuts (print keyword v) := by
  intro r unlimited
  have line : bytes [.prints keyword (Reference.line v) r.machine.store] = Reference.line v :=
    ByteArray.append_empty
  have whole : Runner.print keyword v r = .ok () (r.printed keyword (Reference.line v)) := by
    rw [print_apply, if_pos (by simp [Sink.fits, unlimited])]
  have fits (limit : Nat) : (r.limited (some limit)).machine.sink.fits (Reference.line v) =
      decide (r.written.size + (Reference.line v).size ≤ limit) := rfl
  refine ⟨[.prints keyword (Reference.line v) r.machine.store], ?_, fun limit room => ?_,
    fun limit room beyond => ?_⟩
  · rw [whole]
    refine ⟨rfl, rfl, rfl, ?_⟩
    simp only [final, printed, Sink.write, unlimited, line]
    rfl
  · rw [line, ByteArray.size_append] at room
    have all : (Reference.line v).extract 0 (limit - r.written.size) = Reference.line v :=
      extract_of_size_le (by omega)
    rw [whole, print_apply, fits, if_pos (decide_eq_true room)]
    simp only [limitedEnd, limited, printed, Sink.write, unlimited]
    rw [← written, all]
  · rw [line, ByteArray.size_append] at beyond
    have same : (r.limited (some limit)).printed keyword (Reference.line v) =
        r.full limit [] keyword (Reference.line v) r.machine.store := by
      simp only [full, printed, limited, Sink.write, bytes, ByteArray.append_empty, List.append_nil,
        Store.truncate_size]
      rfl
    rw [print_apply, fits, if_neg (by simpa using beyond), same]
    refine .short [] [] rfl ?_ ?_
    · rwa [bytes, ByteArray.append_empty]
    · rwa [bytes, ByteArray.append_empty]

theorem either {x : Running α} {f : α → Running β} {g : Exit → Running β} (first : Cuts x)
    (next : ∀ a, Cuts (f a)) (caught : ∀ exit, Cuts (g exit))
    (stops : ∀ stop, g (.stop stop) = MonadExcept.throw (.stop stop)) : Cuts (either x f g) := by
  intro r unlimited
  obtain ⟨events, cut⟩ := first r unlimited
  have goes := cut.goes
  -- Whichever way the first part ends, what follows runs where it ended.
  obtain ⟨y, cuts, same, follows⟩ : ∃ y : Running β, Cuts y ∧
      Runner.either x f g r = y (final (x r)) ∧
      ∀ limit, x (r.limited (some limit)) = limitedEnd (some limit) (x r) →
        Runner.either x f g (r.limited (some limit)) = y ((final (x r)).limited (some limit)) := by
    cases result : x r with
    | ok a r' =>
      refine ⟨f a, next a, by rw [Runner.either, result]; rfl, fun limit fits => ?_⟩
      rw [Runner.either, fits]
      rfl
    | error exit r' =>
      refine ⟨g exit, caught exit, by rw [Runner.either, result]; rfl, fun limit fits => ?_⟩
      rw [Runner.either, fits]
      rfl
  generalize final (x r) = r' at goes same follows
  obtain ⟨further, rest⟩ := cuts r' (by rw [goes.sink])
  have total : r.written ++ bytes (events ++ further) = r'.written ++ bytes further := by
    rw [Event.bytes_append, ← ByteArray.append_assoc, goes.written_eq]
  have start : r'.written.size = (r.written ++ bytes events).size := by rw [goes.written_eq]
  refine ⟨events ++ further, ?_, fun limit room => ?_, fun limit room beyond => ?_⟩
  · rw [same]
    exact goes.trans rest.goes
  · rw [total] at room
    have soon : (r.written ++ bytes events).size ≤ limit := by
      rw [ByteArray.size_append] at room
      omega
    rw [follows limit (cut.fits limit soon), same, rest.fits limit room]
  · rw [total] at beyond
    by_cases soon : (r.written ++ bytes events).size ≤ limit
    · rw [follows limit (cut.fits limit soon)]
      exact (rest.halts limit (by omega) beyond).after goes
    · have halted := cut.halts limit room (by omega)
      rw [Runner.either]
      generalize x (r.limited (some limit)) = result at halted
      cases halted with
      | short before after split starts exceeds =>
        rw [split, List.append_assoc]
        dsimp only
        rw [stops]
        exact .short before (after ++ further) rfl starts exceeds

theorem bind {x : Running α} {f : α → Running β} (first : Cuts x) (next : ∀ a, Cuts (f a)) :
    Cuts (x >>= f) := by
  have same : x >>= f = Runner.either x f MonadExcept.throw := by
    funext r
    simp only [Bind.bind, EStateM.bind, Runner.either]
    cases x r <;> rfl
  rw [same]
  exact first.either next throw fun _ => rfl

theorem map {x : Running α} (first : Cuts x) (g : α → β) : Cuts (g <$> x) :=
  first.bind fun a => pure (g a)

theorem repeatWhile {condition : Running Value} {body : Running Unit} (first : Cuts condition)
    (round : Cuts body) (count : Nat) : Cuts (repeatWhile condition body count) := by
  induction count with
  | zero => exact throw _
  | succ count ih =>
    have same : Runner.repeatWhile condition body (count + 1) = condition >>= fun v =>
        if v.truthy then
          Runner.either body (fun _ => Runner.repeatWhile condition body count) fun exit =>
            if exit = .left then Pure.pure () else MonadExcept.throw exit
        else Pure.pure () := by
      funext r
      simp only [Runner.repeatWhile, Bind.bind, EStateM.bind]
      cases condition r with
      | error exit after => rfl
      | ok v after =>
        dsimp only
        split
        · simp only [Runner.either]
          cases body after with
          | ok _ again => rfl
          | error exit last => cases exit <;> rfl
        · rfl
    rw [same]
    refine first.bind fun v => ?_
    split
    · refine round.either (fun _ => ih) (fun exit => ?_) fun _ => rfl
      cases exit with
      | left => exact pure ()
      | stop stop => exact throw _
    · exact pure ()

theorem inScope {body : Running Unit} (inside : Cuts body) : Cuts (inScope body) := by
  intro r unlimited
  obtain ⟨events, cut⟩ := inside r.opened unlimited
  have goes := cut.goes
  have same (limit : Option Nat) : (r.limited limit).opened = r.opened.limited limit := rfl
  refine ⟨events, ?_, fun limit room => ?_, fun limit room beyond => ?_⟩
  · rw [Runner.inScope]
    cases result : body r.opened <;>
      · rw [result] at goes
        exact goes.closed
  · rw [Runner.inScope, Runner.inScope, same, cut.fits limit room]
    cases body r.opened <;> rfl
  · have halted := cut.halts limit room beyond
    rw [Runner.inScope, same]
    generalize body (r.opened.limited (some limit)) = result at halted
    cases halted with
    | short before after split starts exceeds =>
      dsimp only
      rw [closed_full]
      exact .short before after split starts exceeds

end Cuts

mutual

theorem exec_cuts (rounds : Nat) : (s : Stmt) → Cuts (exec rounds s)
  | .expr e => (Cuts.eval e).map _
  | .print keyword e => (Cuts.eval e).bind fun v => .print keyword v
  | .declare name none => .define name .nil
  | .declare name (some e) => (Cuts.eval e).bind fun v => .define name v
  | .block body => (execAll_cuts rounds body).inScope
  | .branch condition consequent alternate => by
    refine (Cuts.eval condition).bind fun v => ?_
    split
    · exact (execAll_cuts rounds consequent).inScope
    · exact (execAll_cuts rounds alternate).inScope
  | .loop condition body =>
    (Cuts.eval condition).repeatWhile
      ((Cuts.note body).bind fun _ => exec_cuts rounds body).inScope rounds
  | .leave _ => .throw .left

theorem execAll_cuts (rounds : Nat) : (body : List Stmt) → Cuts (execAll rounds body)
  | [] => .pure ()
  | s :: rest =>
    (Cuts.note s).bind fun _ => (exec_cuts rounds s).bind fun _ => execAll_cuts rounds rest

end

theorem Idle.limited {r : Runner} (idle : r.Idle) (limit : Option Nat) : (r.limited limit).Idle :=
  ⟨idle.current, idle.inside⟩

/-- What is left of a run through these events when `k` more bytes fit: it stops at the print whose line
has the byte behind these, and nothing comes after it. -/
def CutShort (k : Nat) (r : Runner) (events : List Event)
    (result : EStateM.Result Stop Runner Unit) : Prop :=
  ∃ before keyword line store after, events = before ++ .prints keyword line store :: after ∧
    (bytes before).size ≤ k ∧ k < (bytes before).size + line.size ∧
    result = .error (.failure ⟨keyword, .output "sink full"⟩)
      { machine := ⟨store.truncate r.machine.store.size,
          ⟨r.written ++ (bytes events).extract 0 k, some (r.written.size + k)⟩⟩
        current := Machine.globalScope
        journal := r.journal ++ before ++ [.prints keyword line store] }

section Runs

variable {rounds : Nat} {entries : List (Option Stmt)} {r : Runner} {events : List Event}

theorem Cut.run_goes (cut : Cut (execAll rounds (entries.filterMap id)) (r.limited none) events)
    (idle : r.Idle) : r.Goes events (final (run rounds entries (r.limited none))) := by
  have goes := cut.goes
  rw [run]
  cases result : execAll rounds (entries.filterMap id) (r.limited none) with
  | ok _ after =>
    rw [result] at goes
    exact ⟨goes.current, goes.size, goes.journal, goes.sink⟩
  | error exit after =>
    rw [result] at goes
    cases exit with
    | left => exact ⟨goes.current, goes.size, goes.journal, goes.sink⟩
    | stop stop => exact ⟨idle.current.symm, goes.size, goes.journal, goes.sink⟩

theorem Cut.run_fits (cut : Cut (execAll rounds (entries.filterMap id)) (r.limited none) events)
    {limit : Nat} (room : (r.written ++ bytes events).size ≤ limit) :
    run rounds entries (r.limited (some limit)) =
      limitedEnd (some limit) (run rounds entries (r.limited none)) := by
  have fits : execAll rounds (entries.filterMap id) (r.limited (some limit)) =
      limitedEnd (some limit) (execAll rounds (entries.filterMap id) (r.limited none)) :=
    cut.fits limit room
  rw [run, run, fits]
  cases execAll rounds (entries.filterMap id) (r.limited none) with
  | ok _ after => rfl
  | error exit after => cases exit <;> rfl

theorem Cut.run_halts (cut : Cut (execAll rounds (entries.filterMap id)) (r.limited none) events)
    {k : Nat} (beyond : k < (bytes events).size) :
    CutShort k r events (run rounds entries (r.limited (some (r.written.size + k)))) := by
  have less : r.written.size + k < (r.written ++ bytes events).size := by
    rw [ByteArray.size_append]
    omega
  have halted : Halts (r.written.size + k) (r.limited none) events
      (execAll rounds (entries.filterMap id) (r.limited (some (r.written.size + k)))) :=
    cut.halts _ (Nat.le_add_right _ _) less
  rw [run]
  generalize execAll rounds (entries.filterMap id) _ = result at halted
  cases halted with
  | @short before keyword line store after split starts exceeds =>
    have size : ((r.limited none).written ++ bytes before).size =
        r.written.size + (bytes before).size := ByteArray.size_append
    rw [size] at starts exceeds
    have start : (bytes before).size ≤ k := by omega
    have room : k - (bytes before).size =
        r.written.size + k - ((r.limited none).written ++ bytes before).size := by omega
    refine ⟨before, keyword, line, store, after, split, start, by omega, ?_⟩
    rw [split, Event.extract_bytes before after keyword store start (by omega),
      ← ByteArray.append_assoc, room]
    rfl

end Runs

/-- A limit cuts a run off and does nothing else. Without one the run goes through some events and
prints their lines. If there is room for these, nothing is different. If there is not, the run stops at
the print whose line goes over the limit, blames its word and keeps just the bytes that fit; the
variables are those at that print, and the runner is in the global scope. -/
theorem limit_cuts_run (rounds : Nat) (entries : List (Option Stmt)) {r : Runner} (idle : r.Idle)
    (k : Nat) :
    (∀ limit, forget (run rounds entries (r.limited limit)) =
      Machine.run rounds entries (r.limited limit).machine) ∧
    ∃ events, r.Goes events (final (run rounds entries (r.limited none))) ∧
      ((bytes events).size ≤ k → run rounds entries (r.limited (some (r.written.size + k))) =
        limitedEnd (some (r.written.size + k)) (run rounds entries (r.limited none))) ∧
      (k < (bytes events).size →
        CutShort k r events (run rounds entries (r.limited (some (r.written.size + k))))) := by
  obtain ⟨events, cut⟩ := execAll_cuts rounds (entries.filterMap id) (r.limited none) rfl
  refine ⟨fun limit => forget_run rounds entries (idle.limited limit), events, cut.run_goes idle,
    fun room => cut.run_fits ?_, fun beyond => cut.run_halts beyond⟩
  rw [ByteArray.size_append]
  omega

def fullSample : List (Option Stmt) :=
  let word (kind : Kind) (lexeme : String) (column : Nat) : Token := ⟨kind, lexeme, none, ⟨1, column⟩⟩
  [some (.declare (word .name "a" 1) (some (.literal (.string "one")))),
    some (.print (word .printWord "print" 2) (.var (word .name "a" 3))),
    some (.block [.expr (.assign (word .name "a" 4) (.literal (.string "two"))),
      .print (word .printWord "print" 5) (.var (word .name "a" 6)),
      .expr (.assign (word .name "a" 7) (.literal (.string "three")))])]

theorem fullSample_cut :
    (start .unlimited).Idle ∧
      (∃ keyword after, run 1 fullSample ((start .unlimited).limited (some 5)) =
        .error (.failure ⟨keyword, .output "sink full"⟩) after ∧
        after.current = Machine.globalScope ∧ after.written = "one\nt".toUTF8 ∧
        after.machine.store.slot Machine.globalScope "a" = some (.string "two")) := by
  obtain ⟨-, events, goes, -, halts⟩ := limit_cuts_run 1 fullSample (idle_start .unlimited) 5
  have size : (final (run 1 fullSample ((start .unlimited).limited none))).written.size = 8 := by
    decide +kernel
  rw [goes.written_eq, ByteArray.size_append] at size
  have empty : (start .unlimited).written.size = 0 := rfl
  obtain ⟨before, keyword, line, store, after, -, -, -, ends⟩ := halts (by omega)
  rw [empty] at ends
  have written : (final (run 1 fullSample ((start .unlimited).limited (some (0 + 5))))).written =
      "one\nt".toUTF8 := by decide +kernel
  have slot : (final (run 1 fullSample ((start .unlimited).limited (some (0 + 5))))).machine.store.slot
      Machine.globalScope "a" = some (.string "two") := by decide +kernel
  rw [ends] at written slot
  exact ⟨idle_start _, keyword, _, ends, rfl, written, slot⟩

end Runner

end Scriptlet
