import Mathlib.Algebra.Group.Int.Defs
import Mathlib.Algebra.Group.Nat.Defs
import TcpCongestion.TimerPass

/-! How long `aeProcessEvents` of `thirdparty/redisnet/ae.c` sleeps in `epoll_wait`:
`aeSearchNearestTimer`, the `timeval` it is turned into, and the `int` of milliseconds that
`aeApiPoll` makes of that. The sleep ends when the first time event is due, as long as that is
less than 2^31 milliseconds away. -/
namespace TcpCongestion.TimerChain
open Runs LinkedCells TimeEvents

variable {α τ : Type}

def AE_FILE_EVENTS : BitVec 4 := 1
def AE_TIME_EVENTS : BitVec 4 := 2
def AE_ALL_EVENTS : BitVec 4 := AE_FILE_EVENTS ||| AE_TIME_EVENTS
def AE_DONT_WAIT : BitVec 4 := 4
def AE_CALL_AFTER_SLEEP : BitVec 4 := 8

/-- Strictly earlier, as `aeSearchNearestTimer` compares. -/
def Earlier (one two : When) : Prop := one.sec < two.sec ∨ one.sec = two.sec ∧ one.ms < two.ms

instance (one two : When) : Decidable (Earlier one two) := inferInstanceAs (Decidable (_ ∨ _))

/-- The loop of `aeSearchNearestTimer`. -/
def searchNearest (heap : Heap α (Event τ)) : Nat → Option α → Option α → Option (Option α)
  | 0, _, _ => none
  | _ + 1, none, nearest => some nearest
  | fuel + 1, some te, none => do
    let cell ← heap te
    searchNearest heap fuel cell.next (some te)
  | fuel + 1, some te, some nearest => do
    let cell ← heap te
    let best ← heap nearest
    searchNearest heap fuel cell.next
      (if Earlier cell.value.due best.value.due then some te else some nearest)

def aeSearchNearestTimer (c : Chain α τ) : Option (Option α) :=
  searchNearest c.heap (c.timeEventNextId + 1) c.timeEventHead none

/-- A `timeval`: seconds and microseconds. -/
structure Timeval where
  tvSec : Int
  tvUsec : Int
  deriving DecidableEq, Repr

/-- The time `aeProcessEvents` is ready to wait, `none` for ever. `now` is what it reads of the
clock, `loopFlags` the member `flags` of the loop. -/
def waitTime (c : Chain α τ) (flags loopFlags : BitVec 4) (now : When) :
    Option (Option Timeval) := do
  let shortest ← if flags &&& AE_TIME_EVENTS ≠ 0 ∧ ¬ flags &&& AE_DONT_WAIT ≠ 0 then
      aeSearchNearestTimer c
    else some none
  let tvp ← match shortest with
    | some te => do
      let cell ← c.heap te
      let due := cell.value.due
      let ms := (due.sec - now.sec) * 1000 + due.ms - now.ms
      some (some (if ms > 0 then ⟨ms.tdiv 1000, ms.tmod 1000 * 1000⟩ else ⟨0, 0⟩))
    | none => some (if flags &&& AE_DONT_WAIT ≠ 0 then some ⟨0, 0⟩ else none)
  some (if loopFlags &&& AE_DONT_WAIT ≠ 0 then some ⟨0, 0⟩ else tvp)

/-- The last argument of `epoll_wait` in `aeApiPoll`: a `long` that becomes an `int`. A negative
one means to wait for ever. -/
def pollTimeout (tvp : Option Timeval) : Int :=
  match tvp with
  | some tv => (tv.tvSec * 1000 + tv.tvUsec.tdiv 1000).bmod (2 ^ 32)
  | none => -1

/-! ## The nearest event -/

private theorem not_earlier_trans {one two three : When} (first : ¬ Earlier one two)
    (second : ¬ Earlier two three) : ¬ Earlier one three := by
  unfold Earlier at *
  omega

private theorem Earlier.not_earlier {one two : When} (earlier : Earlier one two) :
    ¬ Earlier two one := by
  unfold Earlier at *
  omega

/-- From an event on, the walk finds one that none of the others is earlier than. -/
theorem searchNearest_spec {heap : Heap α (Event τ)} {before : Option α}
    {nodes : List (α × Event τ)} (linked : Linked heap before nodes none)
    (read : heap nearest = some best) (enough : nodes.length < fuel) :
    ∃ te cell, searchNearest heap fuel (entrance nodes none) (some nearest) = some (some te) ∧
      heap te = some cell ∧ ¬ Earlier best.value.due cell.value.due ∧
      ∀ node ∈ nodes, ¬ Earlier node.2.due cell.value.due := by
  induction nodes generalizing before nearest best fuel with
  | nil =>
    cases fuel with
    | zero => cases enough
    | succ fuel =>
      refine ⟨nearest, best, rfl, read, ?_, ?_⟩
      · unfold Earlier
        omega
      · intro node member
        cases member
  | cons node rest ih =>
    cases fuel with
    | zero => cases enough
    | succ fuel =>
      have here : heap node.1 = some ⟨before, entrance rest none, node.2⟩ := linked.1
      have shorter := Nat.lt_of_succ_lt_succ enough
      by_cases earlier : Earlier node.2.due best.value.due
      · obtain ⟨te, cell, found, there, first, least⟩ := ih linked.2 here shorter
        refine ⟨te, cell, ?_, there, not_earlier_trans earlier.not_earlier first, ?_⟩
        · rw [entrance, searchNearest]
          simp only [here, read, Option.bind_eq_bind, Option.bind_some, if_pos earlier, found]
        · exact List.forall_mem_cons.mpr ⟨first, least⟩
      · obtain ⟨te, cell, found, there, first, least⟩ := ih linked.2 read shorter
        refine ⟨te, cell, ?_, there, first, ?_⟩
        · rw [entrance, searchNearest]
          simp only [here, read, Option.bind_eq_bind, Option.bind_some, if_neg earlier, found]
        · exact List.forall_mem_cons.mpr ⟨not_earlier_trans earlier first, least⟩

/-- `aeSearchNearestTimer` finds an event that none is earlier than, if there are any. Events
that have ended count until they are collected. -/
theorem aeSearchNearestTimer_spec {c : Chain α τ} {s : Agenda τ} (represents : Represents c s)
    (inv : s.Inv) (idle : s.phase = .idle) :
    (aeSearchNearestTimer c = some none ∧ ∀ te, c.heap te = none) ∨
      ∃ te cell, aeSearchNearestTimer c = some (some te) ∧ c.heap te = some cell ∧
        ∀ other another, c.heap other = some another →
          ¬ Earlier another.value.due cell.value.due := by
  cases represents with
  | @intro heap seen ahead loose stage phase holds placed timeEventNextId lastTime log =>
    cases placed with
    | walking | inTimeProc | inFinalizer => cases idle
    | idle =>
      have bound : seen.length ≤ timeEventNextId := by simpa [Agenda.listed] using inv.length_le
      simp only [List.append_nil] at holds ⊢
      cases seen with
      | nil =>
        refine .inl ⟨rfl, fun te => not_not.mp fun allocated => ?_⟩
        cases holds.only te allocated
      | cons node rest =>
        obtain ⟨te, e⟩ := node
        have here : heap te = some ⟨none, entrance rest none, e⟩ := holds.linked.1
        obtain ⟨nearest, cell, found, there, first, least⟩ :=
          searchNearest_spec holds.linked.2 here (Nat.lt_of_succ_le bound)
        refine .inr ⟨nearest, cell, ?_, there, fun other another allocated => ?_⟩
        · change searchNearest heap (timeEventNextId + 1) (some te) none = _
          simp only [searchNearest, here, Option.bind_eq_bind, Option.bind_some, found]
        · have member := holds.member allocated
          rw [List.append_nil] at member
          obtain same | later := List.mem_cons.mp member
          · cases same
            exact first
          · exact least _ later

/-! ## Times in milliseconds -/

/-- The milliseconds are within the second. -/
def Normal (time : When) : Prop := 0 ≤ time.ms ∧ time.ms < 1000

instance (time : When) : Decidable (Normal time) := inferInstanceAs (Decidable (_ ∧ _))

def millis (time : When) : Int := time.sec * 1000 + time.ms

private theorem earlier_iff {one two : When} (first : Normal one) (second : Normal two) :
    Earlier one two ↔ millis one < millis two := by
  unfold Earlier millis Normal at *
  omega

private theorem passed_iff {now due : When} (first : Normal now) (second : Normal due) :
    Passed now due ↔ millis due ≤ millis now := by
  unfold Passed millis Normal at *
  omega

private theorem aeAddMillisecondsToNow_normal {milliseconds : Int} {now : When}
    (nonneg : 0 ≤ milliseconds) (normal : Normal now) :
    Normal (aeAddMillisecondsToNow milliseconds now) := by
  have lower := Int.tmod_nonneg 1000 nonneg
  have upper := Int.tmod_lt_of_pos milliseconds (show (0 : Int) < 1000 by decide)
  simp only [aeAddMillisecondsToNow]
  unfold Normal at *
  split <;> dsimp only <;> omega

/-- Delays are not negative, and the clock is read as `gettimeofday` gives it. -/
def Timely : Move α τ → Prop
  | .create _ milliseconds _ _ now => 0 ≤ milliseconds ∧ Normal now
  | .returned retval now => retval = AE_NOMORE ∨ 0 ≤ retval ∧ Normal now
  | _ => True

instance (move : Move α τ) : Decidable (Timely move) := by
  cases move <;> unfold Timely <;> infer_instance

namespace Agenda

def Dated (s : Agenda τ) : Prop := ∀ e ∈ s.listed, Normal e.due

/-- The pass goes past an event. -/
theorem Dated.passed {s next : Agenda τ} {e left : Event τ} {rest : List (Event τ)}
    (dated : s.Dated) (here : s.ahead = e :: rest) (seen : next.seen = s.seen ++ [left])
    (ahead : next.ahead = rest) (normal : Normal e.due → Normal left.due) : next.Dated := by
  rw [Dated, listed, here, List.forall_mem_append, List.forall_mem_cons] at dated
  rw [Dated, listed, seen, ahead, List.forall_mem_append, List.forall_mem_append,
    List.forall_mem_singleton]
  exact ⟨⟨dated.1, normal dated.2.1⟩, dated.2.2⟩

/-- The pass takes an event out. -/
theorem Dated.taken {s next : Agenda τ} {e : Event τ} {rest : List (Event τ)}
    (dated : s.Dated) (here : s.ahead = e :: rest) (seen : next.seen = s.seen)
    (ahead : next.ahead = rest) : next.Dated := by
  rw [Dated, listed, here, List.forall_mem_append, List.forall_mem_cons] at dated
  rw [Dated, listed, seen, ahead, List.forall_mem_append]
  exact ⟨dated.1, dated.2.2⟩

private theorem Dated.step {s next : Agenda τ} {move : Move α τ} (dated : s.Dated)
    (took : s.Step move next) (timely : Timely move) : next.Dated := by
  cases took with
  | refused calls => exact dated
  | created calls =>
    apply List.forall_mem_cons.mpr ⟨?_, dated⟩
    exact aeAddMillisecondsToNow_normal timely.1 timely.2
  | deleted calls =>
    intro e member
    rw [listed, ← List.map_append] at member
    obtain ⟨e, before, rfl⟩ := List.mem_map.mp member
    rw [Event.endIf]
    split
    · exact dated e before
    · exact dated e before
  | @entered _ now idle =>
    have all : ∀ e ∈ s.seen, Normal e.due := fun e member => dated e (List.mem_append_left _ member)
    rw [Dated, listed, List.nil_append]
    split
    · rw [List.forall_mem_map]
      exact all
    · exact all
  | collected e rest maxId walking here | unlinked e rest maxId walking here =>
    exact dated.taken here rfl rfl
  | newer e rest maxId walking here | waits e rest maxId walking here =>
    exact dated.passed here rfl rfl fun normal => normal
  | fired e rest maxId walking here => exact dated
  | again e rest maxId calling here more =>
    obtain ⟨nonneg, normal⟩ := timely.resolve_left more
    exact dated.passed here rfl rfl fun _ => aeAddMillisecondsToNow_normal nonneg normal
  | nomore e rest maxId calling here =>
    exact dated.passed here rfl rfl fun normal => normal
  | finalized e maxId calling => exact dated
  | finished walking all => exact dated

private theorem Dated.steps {s last : Agenda τ} {moves : List (Move α τ)} (dated : s.Dated)
    (took : Steps s moves last) (timely : ∀ move ∈ moves, Timely move) : last.Dated := by
  induction took with
  | nil => exact dated
  | cons took onward ih =>
    obtain ⟨first, later⟩ := List.forall_mem_cons.mp timely
    exact ih (dated.step took first) later

end Agenda

/-! ## The sleep -/

/-- The flags of `aeLoopOnce`. -/
def loopOnceFlags : BitVec 4 := AE_ALL_EVENTS ||| AE_CALL_AFTER_SLEEP

/-- The sleep is as long as it takes until the nearest event is due, as an `int`. -/
theorem pollTimeout_nearest {c : Chain α τ} (now : When)
    (found : aeSearchNearestTimer c = some (some te)) (read : c.heap te = some cell) :
    ∃ tvp, waitTime c loopOnceFlags 0 now = some tvp ∧
      pollTimeout tvp = ((millis cell.value.due - millis now).toNat : Int).bmod (2 ^ 32) := by
  have searches : loopOnceFlags &&& AE_TIME_EVENTS ≠ 0 ∧
      ¬ loopOnceFlags &&& AE_DONT_WAIT ≠ 0 := by decide
  have waits : ¬ (0 : BitVec 4) &&& AE_DONT_WAIT ≠ 0 := by decide
  have ms : (cell.value.due.sec - now.sec) * 1000 + cell.value.due.ms - now.ms =
      millis cell.value.due - millis now := by
    unfold millis
    omega
  simp only [waitTime, if_pos searches, found, read, Option.bind_eq_bind, Option.bind_some,
    if_neg waits, ms, Option.some.injEq, exists_eq_left']
  generalize millis cell.value.due - millis now = wait
  by_cases positive : wait > 0
  · have whole := Int.mul_tdiv_add_tmod wait 1000
    rw [if_pos positive, pollTimeout, Int.mul_tdiv_cancel _ (by decide)]
    dsimp only
    congr 1
    omega
  · rw [if_neg positive, Int.toNat_of_nonpos (Int.not_lt.mp positive)]
    rfl

/-- Every time is that of some reading of the clock. -/
theorem exists_normal (time : Int) : ∃ reading, Normal reading ∧ millis reading = time := by
  refine ⟨⟨time / 1000, time % 1000⟩, ?_, ?_⟩
  · simp only [Normal]
    omega
  · simp only [millis]
    omega

/-- A time to wait survives the conversion to `int` if it is less than 2^31. -/
theorem timeout_exact_iff (now wait : Int) :
    (∀ later, now ≤ later → (now + wait ≤ later ↔
      0 ≤ (wait.toNat : Int).bmod (2 ^ 32) ∧ now + (wait.toNat : Int).bmod (2 ^ 32) ≤ later)) ↔
      wait < 2 ^ 31 := by
  constructor
  · intro exact_sleep
    by_contra far
    have below := Int.bmod_lt (x := wait) (show 0 < 2 ^ 32 by decide)
    have same : (wait.toNat : Int) = wait := Int.toNat_of_nonneg (by omega)
    rw [same] at exact_sleep
    by_cases forever : 0 ≤ wait.bmod (2 ^ 32)
    · have early := (exact_sleep (now + wait.bmod (2 ^ 32)) (by omega)).mpr ⟨forever, Int.le_refl _⟩
      omega
    · exact forever ((exact_sleep (now + wait) (by omega)).mp (Int.le_refl _)).1
  · intro near later after
    rw [Int.bmod_eq_of_le (by omega) (by omega)]
    omega

section
variable [DecidableEq α] {c : Chain α τ}

private theorem Chain.idle_of_enter {next : Chain α τ} (made : c.step (.enter now) = some next) :
    c.stage = .idle := by
  rw [Chain.step] at made
  split at made
  case isFalse => cases made
  case isTrue enabled =>
    cases stage : c.stage with
    | idle => rfl
    | walking | inTimeProc | inFinalizer =>
      rw [Chain.Enabled, stage] at enabled
      cases enabled.1

/-- Between passes: the nearest event, and all times are as the clock gives them. -/
theorem reached_nearest (timely : ∀ move ∈ moves, Timely move)
    (ran : run Chain.step (Chain.start time) moves = some c) (idle : c.stage = .idle)
    (there : c.heap known = some some_event) :
    ∃ te cell, aeSearchNearestTimer c = some (some te) ∧ c.heap te = some cell ∧
      (∀ other another, c.heap other = some another → Normal another.value.due) ∧
      ∀ other another, c.heap other = some another →
        millis cell.value.due ≤ millis another.value.due := by
  obtain ⟨s, steps, represents, inv⟩ := reached_represents ran
  have rests := represents.idle idle
  have start : (Agenda.start time : Agenda τ).Dated := by
    intro e member
    cases member
  have dated := start.steps steps timely
  have normal : ∀ other another, c.heap other = some another → Normal another.value.due := by
    intro other another allocated
    obtain listed | ⟨e, maxId, phase, -⟩ := represents.memory allocated
    · exact dated _ listed
    · cases rests.symm.trans phase
  obtain ⟨-, none⟩ | ⟨te, cell, found, read, least⟩ :=
    aeSearchNearestTimer_spec represents inv rests
  · cases there.symm.trans (none known)
  · refine ⟨te, cell, found, read, normal, fun other another allocated => ?_⟩
    have first := least other another allocated
    rw [earlier_iff (normal _ _ allocated) (normal _ _ read)] at first
    exact Int.not_lt.mp first

/-- Between two passes, if all delays were nonnegative and there is an event: the sleep of
`aeLoopOnce` ends at the very millisecond in which the first event is due, if and only if that is
less than 2^31 milliseconds away. Beyond that the `int` that `epoll_wait` takes is another number,
or negative, and then the sleep does not end by itself. -/
theorem sleep_ends_when_due_iff {now : When} (timely : ∀ move ∈ moves, Timely move)
    (ran : run Chain.step (Chain.start time) moves = some c) (idle : c.stage = .idle)
    (there : c.heap known = some listed) :
    ∃ tvp, waitTime c loopOnceFlags 0 now = some tvp ∧
      ((∀ later, Normal later → millis now ≤ millis later →
          ((∃ te cell, c.heap te = some cell ∧ Passed later cell.value.due) ↔
            0 ≤ pollTimeout tvp ∧ millis now + pollTimeout tvp ≤ millis later)) ↔
        ∃ te cell, c.heap te = some cell ∧ millis cell.value.due - millis now < 2 ^ 31) := by
  obtain ⟨te, cell, found, read, dated, least⟩ := reached_nearest timely ran idle there
  obtain ⟨tvp, waits, timeout⟩ := pollTimeout_nearest now found read
  refine ⟨tvp, waits, ?_⟩
  have due : ∀ later, Normal later →
      ((∃ te cell, c.heap te = some cell ∧ Passed later cell.value.due) ↔
        millis now + (millis cell.value.due - millis now) ≤ millis later) := by
    intro later reading
    constructor
    · rintro ⟨other, another, allocated, passed⟩
      have first := least other another allocated
      rw [passed_iff reading (dated _ _ allocated)] at passed
      omega
    · intro reached
      exact ⟨te, cell, read, (passed_iff reading (dated _ _ read)).mpr (by omega)⟩
  have near : (∃ te cell, c.heap te = some cell ∧ millis cell.value.due - millis now < 2 ^ 31) ↔
      millis cell.value.due - millis now < 2 ^ 31 := by
    constructor
    · rintro ⟨other, another, allocated, close⟩
      have first := least other another allocated
      omega
    · exact fun close => ⟨te, cell, read, close⟩
  rw [near, ← timeout_exact_iff (millis now), timeout]
  constructor
  · intro ends time after
    obtain ⟨later, reading, rfl⟩ := exists_normal time
    rw [← due later reading]
    exact ends later reading after
  · intro ends later reading after
    rw [due later reading]
    exact ends (millis later) after

/-- One event, due 30 milliseconds after second 11. -/
def oneEvent : List (Move Nat Unit) := [.create (some 7) 50 () false ⟨10, 980⟩]

/-- The state after `oneEvent`. -/
theorem oneEvent_runs : ∃ c cell, run Chain.step (Chain.start 10) oneEvent = some c ∧
    c.stage = .idle ∧ c.lastTime = 10 ∧ c.heap 7 = some cell ∧ cell.value.due = ⟨11, 30⟩ ∧
    waitTime c loopOnceFlags 0 ⟨11, 0⟩ = some (some ⟨0, 30000⟩) ∧
    (run Chain.step c [.enter 11, .visit ⟨11, 30⟩, .returned (-1) ⟨11, 30⟩, .finish]).any
      (fun after => decide (after.stage = .idle)) = true := by
  have runs : (run Chain.step (Chain.start 10) oneEvent).any (fun c =>
      decide (c.stage = .idle ∧ c.lastTime = 10 ∧
        waitTime c loopOnceFlags 0 ⟨11, 0⟩ = some (some ⟨0, 30000⟩) ∧
        (run Chain.step c [.enter 11, .visit ⟨11, 30⟩, .returned (-1) ⟨11, 30⟩, .finish]).any
          (fun after => decide (after.stage = .idle)) = true) &&
      (c.heap 7).any fun cell => decide (cell.value.due = ⟨11, 30⟩)) = true := by
    decide +kernel
  obtain ⟨c, ran, facts⟩ := (Option.any_eq_true _ _).mp runs
  obtain ⟨state, memory⟩ := (Bool.and_eq_true _ _).mp facts
  obtain ⟨idle, last, waits, passes⟩ := of_decide_eq_true state
  obtain ⟨cell, there, due⟩ := (Option.any_eq_true _ _).mp memory
  exact ⟨c, cell, ran, idle, last, there, of_decide_eq_true due, waits, passes⟩

private theorem oneEvent_timely : ∀ move ∈ oneEvent, Timely move := by decide

theorem sleeps_thirty_milliseconds :
    ∃ c tvp, run Chain.step (Chain.start 10) oneEvent = some c ∧
      waitTime c loopOnceFlags 0 ⟨11, 0⟩ = some tvp ∧ pollTimeout tvp = 30 ∧
      ∀ later, Normal later → millis ⟨11, 0⟩ ≤ millis later →
        ((∃ te cell, c.heap te = some cell ∧ Passed later cell.value.due) ↔
          0 ≤ pollTimeout tvp ∧ millis ⟨11, 0⟩ + pollTimeout tvp ≤ millis later) := by
  obtain ⟨c, cell, ran, idle, -, there, due, waits, -⟩ := oneEvent_runs
  obtain ⟨tvp, again, ends⟩ := sleep_ends_when_due_iff oneEvent_timely ran idle there
  cases waits.symm.trans again
  refine ⟨c, _, ran, waits, by decide, ends.mpr ⟨7, cell, there, ?_⟩⟩
  rw [due]
  decide

/-- After a sleep of full length the pass has something to do: it calls or collects an event,
whatever it reads of the clock on the way. -/
theorem full_sleep_serves {now : When} {after : Chain α τ} {middle : List (Move α τ)}
    (timely : ∀ move ∈ moves, Timely move)
    (ran : run Chain.step (Chain.start time) moves = some c)
    (near : ∃ te cell, c.heap te = some cell ∧ millis cell.value.due - millis now < 2 ^ 31)
    (slept : waitTime c loopOnceFlags 0 now = some tvp)
    (pass : run Chain.step c (.enter wall :: middle) = some after)
    (forward : c.lastTime ≤ wall) (once : ∀ again, .enter again ∉ middle)
    (past : after.stage = .idle)
    (readings : ∀ reading, .visit reading ∈ middle →
      Normal reading ∧ millis now + pollTimeout tvp ≤ millis reading) :
    ∃ news te cell, after.log = c.log ++ news ∧ c.heap te = some cell ∧
      (.timeProc cell.value.born cell.value.id ∈ news ∨ Collected cell.value news) := by
  obtain ⟨known, some_event, there, close⟩ := near
  have idle : c.stage = .idle := by
    obtain ⟨next, made, -⟩ := run_cons.mp pass
    exact Chain.idle_of_enter made
  obtain ⟨te, cell, found, read, dated, least⟩ := reached_nearest timely ran idle there
  obtain ⟨_, waits, timeout⟩ := pollTimeout_nearest now found read
  cases slept.symm.trans waits
  have first := least known some_event there
  rw [Int.bmod_eq_of_le (by omega) (by omega)] at timeout
  obtain ⟨news, log, -, -, served⟩ := pass_serves_events ran pass once past
  have mine := served te cell read
  rw [if_neg (Int.not_lt.mpr forward)] at mine
  obtain ⟨-, called | ⟨reading, -, visited, early⟩⟩ | collected := mine
  · exact ⟨news, te, cell, log, read, .inl called⟩
  · -- the sleep was over when the event was visited
    obtain ⟨normal, later⟩ := readings reading visited
    rw [passed_iff normal (dated te cell read)] at early
    omega
  · exact ⟨news, te, cell, log, read, .inr collected⟩

theorem slept_thirty_milliseconds :
    ∃ c after news te cell, run Chain.step (Chain.start 10) oneEvent = some c ∧
      run Chain.step c [.enter 11, .visit ⟨11, 30⟩, .returned (-1) ⟨11, 30⟩, .finish] =
        some after ∧
      after.log = c.log ++ news ∧ c.heap te = some cell ∧
      (.timeProc cell.value.born cell.value.id ∈ news ∨ Collected cell.value news) := by
  obtain ⟨c, cell, ran, idle, last, there, due, waits, passes⟩ := oneEvent_runs
  obtain ⟨after, pass, past⟩ := (Option.any_eq_true _ _).mp passes
  have near : ∃ te cell, c.heap te = some cell ∧
      millis cell.value.due - millis ⟨11, 0⟩ < 2 ^ 31 := by
    refine ⟨7, cell, there, ?_⟩
    rw [due]
    decide
  obtain ⟨news, te, cell, served⟩ := full_sleep_serves oneEvent_timely ran near waits pass
    (by rw [last]; decide) (by simp) (of_decide_eq_true past) (by
      intro reading member
      simp only [List.mem_cons, Move.visit.injEq, reduceCtorEq, List.not_mem_nil, or_false] at member
      rw [member]
      decide)
  exact ⟨c, after, news, te, cell, ran, pass, served⟩

end

end TcpCongestion.TimerChain
