import TcpCongestion.Dispatch
import TcpCongestion.PeerCounter
import TcpCongestion.Timers

/-! `TcpServer::LoopOnce` and the `main` of `echo_server.cc`. A pass of the loop calls back for
the descriptors the kernel reported and then for the timers that are due; the server registers
for reading only, and closes descriptors without taking them out of the table. -/
namespace TcpCongestion.ServerLoop
open Posix Runs TcpPeerProofs TcpServer TcpServerProofs TimeEvents Timers FileEvents Dispatch

/-- The functions the server registers. -/
inductive Proc where
  | acceptTcpHandler
  | readEventCallback
  deriving DecidableEq, Repr

def procOf : Handler → Proc
  | .acceptTcp => .acceptTcpHandler
  | .peer _ => .readEventCallback

def isData (input : PeerInput) : Bool :=
  match input.result with
  | .data _ => true
  | .eof | .error _ => false

/-- What the system calls of one callback answer: that of `accept`, or those of the `read`s
until one has no data, with the time at which `NotifiRead` began and the reading of the clock
for a timer, should it make one. -/
inductive Answer where
  | accept (answer : Except Errno Int)
  | reads (now : Int32) (data : List PeerInput) (last : PeerInput) (clock : When)

/-- The server in the middle of a pass, with the answers to come. -/
structure Serving where
  server : TcpServer
  timers : TimerList Unit
  answers : List Answer

/-- The entry of a descriptor: there are no writers. -/
def entry (x : Serving) (fd : Nat) : Entry Proc Handler :=
  let event := x.server.evb.events fd
  ⟨event.mask, event.clientData.map procOf, none, event.clientData⟩

/-- The time event that `PeerClose` created, if the callback came to that. -/
def enlist (timers : TimerList Unit) (evb : EventLoop Handler Unit) (clock : When) : TimerList Unit :=
  if timers.timeEventNextId < evb.timeEventNextId then
    { timers with
      timeEventNextId := timers.timeEventNextId + 1
      timeEventHead :=
        ⟨some timers.timeEventNextId, aeAddMillisecondsToNow 1 clock, ()⟩ :: timers.timeEventHead }
  else timers

/-- `AcceptTcpHandler` and `ReadEventCallback`. -/
def call (c : Called Proc Handler) (x : Serving) : Option Serving :=
  match c.proc, x.answers with
  | .acceptTcpHandler, .accept answer :: rest =>
    (x.server.step (.accept answer)).map fun server => { x with server, answers := rest }
  | .readEventCallback, .reads now data last clock :: rest =>
    if data.all isData && !isData last then
      (run TcpServer.step x.server ((data ++ [last]).map (.readable c.fd now))).map fun server =>
        ⟨server, enlist x.timers server.evb clock, rest⟩
    else none
  | _, _ => none

/-- A pass: what the kernel reports, how it answers, and the clock for the timers. -/
structure Turn where
  fired : List Fired
  answers : List Answer
  wall : Int
  clock : Nat → When

/-- `epoll_wait` reports descriptors it polls, each once. -/
def Reports (s : TcpServer) (fired : List Fired) : Prop :=
  (fired.map Fired.fd).Nodup ∧ ∀ ev ∈ fired, (ev.fd : Int) ∈ s.evb.interest

instance (s : TcpServer) (fired : List Fired) : Decidable (Reports s fired) :=
  inferInstanceAs (Decidable (_ ∧ _))

/-- `LoopOnce`. -/
def loopOnce (turn : Turn) (s : TcpServer) (timers : TimerList Unit) :
    Option (TcpServer × TimerList Unit) :=
  if Reports s turn.fired then
    (processFired entry call ⟨s, timers, turn.answers⟩ turn.fired).bind fun (x, _) =>
      (processTimeEvents deleteProc turn.clock turn.wall x.server x.timers).map fun (s, timers, _) =>
        (s, timers)
  else none

/-! ## What the callbacks leave alone -/

section

variable {s next : TcpServer} {listenfd fd : Int} {data : List PeerInput} {last : PeerInput}

/-- A descriptor that is polled stays so, with its entry, until its own callback. -/
theorem step_table (inv : ServerInv listenfd s) (took : s.step event = some next)
    (polled : fd ∈ s.evb.interest) (other : ∀ now input, event ≠ .readable fd now input) :
    fd ∈ next.evb.interest ∧ next.evb.events fd = s.evb.events fd := by
  cases inv.moves took with
  | @acceptNew new natural unopened allowed unknown =>
    have different : fd ≠ new := fun same => unopened (same ▸ inv.polled fd polled)
    exact ⟨List.mem_cons_of_mem _ polled, Function.update_of_ne different _ _⟩
  | @fatal own p object now input positive client ownPolled registered found final done =>
    have different : fd ≠ own := fun same => other now input (same ▸ rfl)
    exact ⟨List.mem_filter.mpr ⟨polled, by simpa using different⟩, rfl⟩
  | timer =>
    rw [inv.deletePeerList.2]
    exact ⟨polled, rfl⟩
  | acceptFailed | acceptStale | acceptBeyond | data | waits | failedCall => exact ⟨polled, rfl⟩

private theorem run_table (inv : ServerInv listenfd s)
    (ran : run TcpServer.step s events = some next) (polled : fd ∈ s.evb.interest)
    (others : ∀ event ∈ events, ∀ now input, event ≠ .readable fd now input) :
    fd ∈ next.evb.interest ∧ next.evb.events fd = s.evb.events fd := by
  induction events generalizing s with
  | nil =>
    cases ran
    exact ⟨polled, rfl⟩
  | cons event rest ih =>
    obtain ⟨mid, took, onward⟩ := run_cons.mp ran
    obtain ⟨still, same⟩ := step_table inv took polled (others event List.mem_cons_self)
    obtain ⟨after, again⟩ := ih (inv.step took) onward still fun other member =>
      others other (List.mem_cons_of_mem event member)
    exact ⟨after, again.trans same⟩

/-- A callback's reads leave the loop alone, but for the last one, which may end the peer. -/
theorem readable_evb (inv : ServerInv listenfd s)
    (took : s.step (.readable fd now input) = some next) :
    next.evb = s.evb ∨ isData input = false ∧ next.evb = (s.evb.aeCreateTimeEvent ()).closed fd := by
  cases inv.moves took with
  | data | waits => exact .inl rfl
  | fatal positive client polled registered found final done =>
    refine .inr ⟨?_, rfl⟩
    unfold isData
    split
    · next chunk data => exact absurd data (final chunk)
    · rfl
    · rfl

private theorem reads_evb (inv : ServerInv listenfd s) (all : data.all isData = true)
    (ran : run TcpServer.step s (data.map (.readable fd now)) = some next) :
    ServerInv listenfd next ∧ next.evb = s.evb := by
  induction data generalizing s with
  | nil =>
    cases ran
    exact ⟨inv, rfl⟩
  | cons input rest ih =>
    obtain ⟨mid, took, onward⟩ := run_cons.mp ran
    obtain ⟨first, later⟩ := Bool.and_eq_true_iff.mp (List.all_cons.symm.trans all)
    obtain same | ⟨none, _⟩ := readable_evb inv took
    · obtain ⟨kept, again⟩ := ih (inv.step took) later onward
      exact ⟨kept, again.trans same⟩
    · rw [none] at first
      exact absurd first Bool.false_ne_true

/-- A whole `ReadEventCallback`. -/
theorem callback_evb (inv : ServerInv listenfd s) (all : data.all isData = true)
    (ran : run TcpServer.step s ((data ++ [last]).map (.readable fd now)) = some next) :
    next.evb = s.evb ∨ next.evb = (s.evb.aeCreateTimeEvent ()).closed fd := by
  rw [List.map_append] at ran
  obtain ⟨mid, reads, ends⟩ := run_append.mp ran
  obtain ⟨kept, same⟩ := reads_evb inv all reads
  obtain ⟨_, took, done⟩ := run_cons.mp ends
  cases done
  rw [← same]
  exact (readable_evb kept took).imp_right And.right

end

/-- The steps of the server that a callback makes. -/
theorem call_cases {x y : Serving} (made : call c x = some y) :
    (∃ answer, x.server.step (.accept answer) = some y.server ∧ y.timers = x.timers) ∨
      ∃ now data last clock, data.all isData = true ∧
        run TcpServer.step x.server ((data ++ [last]).map (.readable c.fd now)) = some y.server ∧
        y.timers = enlist x.timers y.server.evb clock := by
  unfold call at made
  split at made
  · obtain ⟨server, took, rfl⟩ := Option.map_eq_some_iff.mp made
    exact .inl ⟨_, took, rfl⟩
  · split at made
    · next complete =>
      obtain ⟨server, ran, rfl⟩ := Option.map_eq_some_iff.mp made
      exact .inr ⟨_, _, _, _, (Bool.and_eq_true_iff.mp complete).1, ran, rfl⟩
    · cases made
  · cases made

/-- The list of time events is that of the server's loop. -/
def TimersAgree (x : Serving) : Prop :=
  Represents x.timers.timeEventNextId x.timers.timeEventHead x.server.evb

private theorem represents_same_events {δ τ : Type} {loop other : EventLoop δ τ}
    {nodes : List (TimeNode τ)}
    (holds : Represents nextId nodes loop) (next : other.timeEventNextId = loop.timeEventNextId)
    (events : other.timeEvents = loop.timeEvents) : Represents nextId nodes other := by
  refine ⟨holds.nextId.trans next.symm, holds.events.trans events.symm, ?_, ?_⟩
  · rw [events, next]
    exact holds.known
  · rw [events]
    exact holds.distinct

private theorem accept_events {s next : TcpServer} {answer : Except Errno Int}
    (inv : ServerInv listenfd s) (took : s.step (.accept answer) = some next) :
    next.evb.timeEventNextId = s.evb.timeEventNextId ∧ next.evb.timeEvents = s.evb.timeEvents := by
  cases inv.moves took with
  | acceptFailed | acceptNew | acceptStale | acceptBeyond => exact ⟨rfl, rfl⟩

private theorem call_timers {x y : Serving} (inv : ServerInv listenfd x.server)
    (agree : TimersAgree x) (made : call c x = some y) : TimersAgree y := by
  obtain ⟨answer, took, timers⟩ | ⟨now, data, last, clock, all, ran, timers⟩ := call_cases made
  · obtain ⟨next, events⟩ := accept_events inv took
    rw [TimersAgree, timers]
    exact represents_same_events agree next events
  · rw [TimersAgree, timers, enlist]
    have numbered : x.timers.timeEventNextId = x.server.evb.timeEventNextId := agree.nextId
    obtain same | ended := callback_evb inv all ran
    · rw [same, if_neg (by omega)]
      exact agree
    · have grown : x.timers.timeEventNextId < y.server.evb.timeEventNextId := by
        rw [ended, numbered]
        exact Nat.lt_succ_self _
      rw [if_pos grown, ended]
      exact represents_same_events (agree.create _ ()) rfl rfl

private theorem call_runs {x y : Serving} (made : call c x = some y) :
    ∃ events, run TcpServer.step x.server events = some y.server := by
  obtain ⟨answer, took, _⟩ | ⟨now, data, last, clock, _, ran, _⟩ := call_cases made
  · exact ⟨[.accept answer], run_cons.mpr ⟨_, took, rfl⟩⟩
  · exact ⟨_, ran⟩

private theorem call_table {x y : Serving} (inv : ServerInv listenfd x.server)
    (made : call c x = some y)
    (fd : Nat) (different : fd ≠ c.fd) (polled : (fd : Int) ∈ x.server.evb.interest) :
    (fd : Int) ∈ y.server.evb.interest ∧ entry y fd = entry x fd := by
  have tables : (fd : Int) ∈ y.server.evb.interest ∧
      y.server.evb.events fd = x.server.evb.events fd := by
    obtain ⟨answer, took, _⟩ | ⟨now, data, last, clock, _, ran, _⟩ := call_cases made
    · exact step_table inv took polled nofun
    · refine run_table inv ran polled fun event member _ _ => ?_
      rintro rfl
      obtain ⟨_, _, same⟩ := List.mem_map.mp member
      cases same
      exact different rfl
  exact ⟨tables.1, by rw [entry, entry, tables.2]⟩

private theorem asks_readable {x : Serving} (asks : Asks (entry x fd) c) :
    c.direction = .readable := by
  cases towards : c.direction with
  | readable => rfl
  | writable =>
    have asked := asks.2
    rw [towards] at asked
    cases asked

private theorem no_writer {x : Serving} (inv : ServerInv listenfd x.server) (ev : Fired) :
    due (entry x ev.fd) ev .writable = false := by
  have masks := inv.masks ev.fd
  have none (mask : BitVec 3) : AE_NONE &&& mask &&& AE_WRITABLE = 0 := by revert mask; decide
  have reader (mask : BitVec 3) : AE_READABLE &&& mask &&& AE_WRITABLE = 0 := by revert mask; decide
  rw [due, entry, bit]
  obtain same | same := masks <;> simp [same, none, reader]

/-- A state of the server in a pass that began in `s`. -/
structure InPass (listenfd : Int) (s : TcpServer) (x : Serving) : Prop where
  inv : ServerInv listenfd x.server
  timers : TimersAgree x
  ran : ∃ events, run TcpServer.step s events = some x.server

private theorem call_minds (listenfd : Int) (s : TcpServer) :
    Minds entry call (InPass listenfd s) (fun x fd => (fd : Int) ∈ x.server.evb.interest)
      (fun _ _ => True) where
  inv := by
    intro x c y held _ _ made
    obtain ⟨events, ran⟩ := held.ran
    obtain ⟨further, onward⟩ := call_runs made
    refine ⟨?_, call_timers held.inv held.timers made, events ++ further, run_append.mpr ⟨_, ran, onward⟩⟩
    exact held.inv.run onward
  others := by
    intro x c y held _ _ made fd different polled
    obtain ⟨still, same⟩ := call_table held.inv made fd different polled
    exact ⟨still, same, trivial⟩
  own := by
    intro x c y held _ asks made
    right
    obtain ⟨further, onward⟩ := call_runs made
    have inv : ServerInv listenfd y.server := held.inv.run onward
    have reader := asks_readable asks
    intro direction other
    cases direction with
    | readable => exact absurd reader.symm other
    | writable => exact no_writer inv ⟨c.fd, c.mask⟩

/-! ## A pass -/

/-- The server has the events of its loop. -/
structure Ready (listenfd : Int) (s : TcpServer) (timers : TimerList Unit) : Prop where
  inv : ServerInv listenfd s
  timers : Represents timers.timeEventNextId timers.timeEventHead s.evb

/-- A descriptor is served by the reader it was registered with, who is called once. -/
theorem delivered_reader {x : Serving} (inv : ServerInv listenfd x.server)
    (delivered : Delivered entry (entry x ev.fd) ev served) :
    served.map Made.call = if due (entry x ev.fd) ev .readable then
      (callOf (entry x ev.fd) ev .readable).toList else [] := by
  have first : (served.map Made.call).head? = if due (entry x ev.fd) ev .readable then
      callOf (entry x ev.fd) ev .readable else none := by
    have writer := no_writer inv ev
    rw [delivered.first, firstCall]
    cases readable : due (entry x ev.fd) ev .readable <;> split <;> simp [readable, writer]
  have readers : ∀ made ∈ served, made.call.direction = .readable :=
    fun made member => asks_readable (delivered.asked made member)
  have single : served.map Made.call = (served.map Made.call).head?.toList := by
    cases served with
    | nil => rfl
    | cons one rest =>
      cases rest with
      | nil => rfl
      | cons two rest =>
        have same := (readers one (by simp)).trans (readers two (by simp)).symm
        have once := delivered.once
        simp [same] at once
  rw [single, first]
  split <;> rfl

/-- A peer that the table asks for, on a descriptor the kernel polls, is alive and has it. -/
theorem asks_alive {y : Serving} {fd : Nat} (inv : ServerInv listenfd y.server)
    (polled : (fd : Int) ∈ y.server.evb.interest) (asks : Asks (entry y fd) c)
    (data : c.clientData = some (.peer p)) : status y.server p = some (true, (fd : Int)) := by
  have asked := asks.2
  rw [asks_readable asks] at asked
  obtain ⟨proc, _, same⟩ := Option.map_eq_some_iff.mp asked
  have registered : (y.server.evb.events fd).clientData = some (.peer p) := by
    rw [← data, ← same]
    rfl
  have client : (fd : Int) ≠ listenfd := fun listener => inv.listenerData p (listener ▸ registered)
  obtain ⟨_, _, q, known⟩ := inv.served fd polled client
  have owner := known.clientData.symm.trans registered
  rw [Option.some.injEq, Handler.peer.injEq] at owner
  exact owner ▸ known.alive

/-- The calls a report makes: to the reader of each descriptor, as registered when the report
was made. -/
def readerOf (s : TcpServer) (ev : Fired) : List (Nat × Option Handler) :=
  let event := s.evb.events ev.fd
  if event.mask &&& ev.mask &&& AE_READABLE ≠ 0 then
    event.clientData.toList.map fun handler => (ev.fd, some handler)
  else []

/-- What a report comes to is a run of the server, in which each descriptor reported is served
once by the peer that had it when the report was made. That peer is alive, and has it, in the
state in which it is called, which the callbacks before it have left: none of them has closed it
or put another in its place. -/
theorem report_reaches_registered_peers (ready : Ready listenfd s timers)
    (report : Reports s fired)
    (processed : processFired entry call ⟨s, timers, answers⟩ fired = some (x, calls)) :
    (∃ events, run TcpServer.step s events = some x.server) ∧
      Leads call ⟨s, timers, answers⟩ calls.flatten x ∧
      List.Forall₂ (fun ev served =>
        served.map (fun made => (made.call.fd, made.call.clientData)) = readerOf s ev ∧
          ∀ made ∈ served, ∀ p, made.call.clientData = some (.peer p) →
            status made.before.server p = some (true, (made.call.fd : Int)) ∧
              ∃ events, run TcpServer.step s events = some made.before.server) fired calls := by
  have begun : InPass listenfd s ⟨s, timers, answers⟩ := ⟨ready.inv, ready.timers, [], rfl⟩
  obtain ⟨after, leads, served, -⟩ := processFired_delivers (call_minds listenfd s) begun report.1
    (fun ev member => ⟨report.2 ev member, rfl⟩) processed
  refine ⟨after.ran, leads, served.imp ?_⟩
  rintro ev calls ⟨delivered, -, held⟩
  constructor
  · have calls_eq : calls.map (fun made => (made.call.fd, made.call.clientData)) =
        (calls.map Made.call).map fun c => (c.fd, c.clientData) := by
      rw [List.map_map]
      rfl
    rw [calls_eq, delivered_reader begun.inv delivered, readerOf]
    by_cases idle : (s.evb.events ev.fd).mask &&& ev.mask &&& AE_READABLE = 0#3
    · simp [due, entry, bit, idle]
    · cases data : (s.evb.events ev.fd).clientData <;> simp [due, callOf, entry, bit, data, idle]
  · intro made member p data
    obtain ⟨inPass, polled⟩ := held made member
    rw [(delivered.here made member).1]
    exact ⟨asks_alive inPass.inv polled (delivered.asked made member) data, inPass.ran⟩

/-- Descriptor 5 ends, and the listener is given its number for the next connection. -/
theorem number_given_again_in_one_report :
    ∃ s x calls, run TcpServer.step (createSocket 3 4 none) [.accept (.ok 5), .accept (.ok 6)] = some s ∧
      processFired entry call ⟨s, ⟨0, [], 0⟩,
        [.reads 0 [] ⟨.error ECONNRESET, 0, 0, .accepted 0⟩ ⟨0, 0⟩, .accept (.ok 5),
          .reads 0 [] ⟨.error EAGAIN, 0, 0, .accepted 0⟩ ⟨0, 0⟩]⟩
        [⟨5, AE_READABLE⟩, ⟨3, AE_READABLE⟩, ⟨6, AE_READABLE⟩] = some (x, calls) ∧
      ∃ events, run TcpServer.step s events = some x.server := by
  have ends : (run TcpServer.step (createSocket 3 4 none) [.accept (.ok 5), .accept (.ok 6)]).any (fun s =>
      decide (Reports s [⟨5, AE_READABLE⟩, ⟨3, AE_READABLE⟩, ⟨6, AE_READABLE⟩]) &&
      decide (s.evb.timeEventNextId = 0 ∧ s.evb.timeEvents = []) &&
      (processFired entry call ⟨s, ⟨0, [], 0⟩,
        [.reads 0 [] ⟨.error ECONNRESET, 0, 0, .accepted 0⟩ ⟨0, 0⟩, .accept (.ok 5),
          .reads 0 [] ⟨.error EAGAIN, 0, 0, .accepted 0⟩ ⟨0, 0⟩]⟩
        [⟨5, AE_READABLE⟩, ⟨3, AE_READABLE⟩, ⟨6, AE_READABLE⟩]).isSome) = true := by decide +kernel
  obtain ⟨s, ran, all⟩ := Option.any_eq_true _ _ |>.mp ends
  obtain ⟨first, processes⟩ := Bool.and_eq_true_iff.mp all
  obtain ⟨reports, timers⟩ := Bool.and_eq_true_iff.mp first
  obtain ⟨nextId, events⟩ := of_decide_eq_true timers
  obtain ⟨⟨x, calls⟩, processed⟩ := Option.isSome_iff_exists.mp processes
  have inv : ServerInv 3 s := (createSocket_inv 3 4 none).run ran
  have agree : Represents 0 [] s.evb := by
    refine ⟨nextId.symm, events.symm, ?_, ?_⟩ <;> simp [events]
  exact ⟨s, x, calls, ran, processed,
    (report_reaches_registered_peers ⟨inv, agree⟩ (of_decide_eq_true reports) processed).1⟩

private theorem loopOnce_cases (passed : loopOnce turn s timers = some (next, after)) :
    Reports s turn.fired ∧ ∃ x calls fired,
      processFired entry call ⟨s, timers, turn.answers⟩ turn.fired = some (x, calls) ∧
        processTimeEvents deleteProc turn.clock turn.wall x.server x.timers = some (next, after, fired) := by
  unfold loopOnce at passed
  split at passed
  · next report =>
    obtain ⟨⟨x, calls⟩, processed, rest⟩ := Option.bind_eq_some_iff.mp passed
    obtain ⟨⟨server, timers, fired⟩, timed, same⟩ := Option.map_eq_some_iff.mp rest
    cases same
    exact ⟨report, x, calls, fired, processed, timed⟩
  · cases passed

/-- A pass is a run of the server. -/
theorem loopOnce_runs (ready : Ready listenfd s timers)
    (passed : loopOnce turn s timers = some (next, after)) :
    (∃ events, run TcpServer.step s events = some next) ∧ Ready listenfd next after := by
  obtain ⟨report, x, calls, fired, processed, timed⟩ := loopOnce_cases passed
  have begun : InPass listenfd s ⟨s, timers, turn.answers⟩ := ⟨ready.inv, ready.timers, [], rfl⟩
  obtain ⟨inPass, -⟩ := processFired_delivers (call_minds listenfd s) begun report.1
    (fun ev member => ⟨report.2 ev member, rfl⟩) processed
  obtain ⟨events, ran⟩ := inPass.ran
  obtain ⟨steps, _, represents⟩ := server_pass inPass.inv inPass.timers timed
  exact ⟨⟨events ++ fired.map .timer, run_append.mpr ⟨_, ran, steps⟩⟩, inPass.inv.run steps,
    represents⟩

/-! ## `main` of the echo server -/

/-- `counter.IsAllDeactive()`. -/
def allDeactive (s : TcpServer) : Bool := s.counter.any (·.isAllDeactive)

/-- The loop of `main`, for as many passes as are made before a signal ends it, and whether it
was left by the counter. -/
def mainLoop (s : TcpServer) (timers : TimerList Unit) : List Turn → Option (TcpServer × Bool)
  | [] => some (s, false)
  | turn :: rest =>
    (loopOnce turn s timers).bind fun (next, after) =>
      if allDeactive next then some (next, true) else mainLoop next after rest

private theorem mainLoop_runs (ready : Ready listenfd s timers)
    (ran : mainLoop s timers turns = some (last, left)) :
    (∃ events, run TcpServer.step s events = some last) ∧
      (left = true → allDeactive last = true) ∧
      (left = false → allDeactive s = false → allDeactive last = false) := by
  induction turns generalizing s timers with
  | nil =>
    cases ran
    exact ⟨⟨[], rfl⟩, nofun, fun _ => id⟩
  | cons turn rest ih =>
    obtain ⟨⟨next, after⟩, passed, onward⟩ := Option.bind_eq_some_iff.mp ran
    obtain ⟨⟨events, steps⟩, ready⟩ := loopOnce_runs ready passed
    dsimp only at onward
    split at onward
    · next done =>
      cases onward
      exact ⟨⟨events, steps⟩, fun _ => done, nofun⟩
    · next going =>
      obtain ⟨⟨further, more⟩, counted, running⟩ := ih ready onward
      exact ⟨⟨events ++ further, run_append.mpr ⟨_, steps, more⟩⟩, counted,
        fun stays _ => running stays (by simpa using going)⟩

private theorem aeCreateFileEvent_frame {loop next : EventLoop δ τ}
    (created : loop.aeCreateFileEvent fd mask clientData = .ok next) :
    ∃ interest events, next = { loop with interest, events } := by
  rw [EventLoop.aeCreateFileEvent] at created
  split at created
  · cases created
  · split at created
    · cases created
    · next added =>
      cases created
      rw [EventLoop.aeApiAddEvent] at added
      split at added
      · cases added
      · cases added
        exact ⟨_, _, rfl⟩

private theorem createSocket_ready (listenfd epfd : Int) (counter : Option PeerCouner)
    (began : Int) : Ready listenfd (createSocket listenfd epfd counter) ⟨0, [], began⟩ := by
  refine ⟨createSocket_inv listenfd epfd counter, ?_⟩
  have empty : Represents 0 [] (EventLoop.aeCreateEventLoop (1024 * 10) : EventLoop Handler Unit) :=
    ⟨rfl, rfl, nofun, List.nodup_nil⟩
  rw [createSocket]
  dsimp only
  split
  · next evb created =>
    obtain ⟨_, _, rfl⟩ := aeCreateFileEvent_frame created
    exact represents_same_events empty rfl rfl
  · exact empty

/-- The echo server leaves its loop by the counter exactly when as many connections as it was
started for have brought their 32-bit count to `totalByte_`, if no more than 2^31 were ever
accepted: not before, and not later than the pass in which the last of them does. `totalByte_`
is the total the connection announced, if its first read held the whole header. -/
theorem echo_server_leaves_when_flows_finished (listenfd epfd began : Int) (flows : Int32)
    (some_flows : 0 < flows.toInt)
    (ran : mainLoop (createSocket listenfd epfd (some ⟨flows⟩)) ⟨0, [], began⟩ turns =
      some (last, left)) (few : last.objects.length ≤ 2 ^ 31) :
    (left = true ↔ flows.toInt ≤ PeerCounter.landed last) ∧
      ∀ object ∈ last.objects, ∀ total, PeerCounter.announced object.effects = some total →
        object.peer.totalByte = total := by
  obtain ⟨⟨events, steps⟩, counted, running⟩ :=
    mainLoop_runs (createSocket_ready listenfd epfd (some ⟨flows⟩) began) ran
  have held := PeerCounter.tally_run listenfd epfd flows steps
  have bound : PeerCounter.finished last ≤ last.objects.length := List.countP_le_length
  have value := Couner.decreaseBy_toInt ⟨flows⟩ (PeerCounter.finished last) (by dsimp only; omega)
  have deactive : allDeactive last = true ↔ flows.toInt ≤ PeerCounter.finished last := by
    rw [allDeactive, held.counter, Option.any_some, Couner.isAllDeactive, decide_eq_true_iff,
      Int32.le_iff_toInt_le, value, show (0 : Int32).toInt = 0 from rfl]
    dsimp only
    omega
  refine ⟨?_, fun object member => (held.objects object member).totalByte⟩
  rw [← held.finished_eq, ← deactive]
  constructor
  · exact counted
  · intro done
    by_contra stays
    have begins : allDeactive (createSocket listenfd epfd (some ⟨flows⟩)) = false := by
      rw [allDeactive, createSocket, Option.any_some, Couner.isAllDeactive, decide_eq_false_iff_not,
        Int32.le_iff_toInt_le]
      exact Int.not_le.mpr some_flows
    exact Bool.false_ne_true ((running (by simpa using stays) begins).symm.trans done)

/-- A pass that accepts a connection, and one in which it sends the eight bytes it announces. -/
def oneFlow : List Turn :=
  [⟨[⟨3, AE_READABLE⟩], [.accept (.ok 5)], 0, fun _ => ⟨0, 0⟩⟩,
    ⟨[⟨5, AE_READABLE⟩], [.reads 0
        [⟨.data (.next 0 [0, 0, 1, 0, 0, 0, 8]), 0, 0, .accepted 14⟩]
        ⟨.error EAGAIN, 0, 0, .accepted 0⟩ ⟨0, 0⟩], 0, fun _ => ⟨0, 0⟩⟩]

theorem echo_server_leaves_after_one_flow :
    ∃ last, mainLoop (createSocket 3 4 (some ⟨1⟩)) ⟨0, [], 0⟩ oneFlow = some (last, true) ∧
      1 ≤ PeerCounter.landed last := by
  have ends : (mainLoop (createSocket 3 4 (some ⟨1⟩)) ⟨0, [], 0⟩ oneFlow).any (fun x =>
      x.2 && decide (x.1.objects.length ≤ 1)) = true := by decide +kernel
  obtain ⟨⟨last, left⟩, ran, both⟩ := Option.any_eq_true _ _ |>.mp ends
  obtain ⟨leaves, few⟩ := Bool.and_eq_true_iff.mp both
  obtain rfl : left = true := leaves
  have bound : last.objects.length ≤ 1 := of_decide_eq_true few
  have done := (echo_server_leaves_when_flows_finished 3 4 0 1 (by decide) ran (by omega)).1.mp rfl
  have one : (1 : Int32).toInt = 1 := rfl
  exact ⟨last, ran, by omega⟩

end TcpCongestion.ServerLoop
