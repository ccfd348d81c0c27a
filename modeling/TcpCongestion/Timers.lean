import TcpCongestion.ClientDescriptors
import TcpCongestion.TcpServerProofs
import TcpCongestion.TimeEvents

/-! The timers of `tcp/tcp_server.cc` and `tcp/tcp_client.cc`. The loop ends a time event when
its callback returns `AE_NOMORE` and at no other time, and neither `DeletePeerTimer` nor
`NextWriteTime` ever returns it. -/
namespace TcpCongestion.Timers

open Posix Runs TcpPeerProofs TcpServer TcpServerProofs TimeEvents

/-! ## The server -/

def isPeerClose : PeerEffect → Bool
  | .peerClose _ => true
  | _ => false

/-- How often `PeerClose` was called. -/
def closes (objects : List PeerObject) : Nat :=
  (objects.flatMap PeerObject.effects).countP isPeerClose

/-- A server with the timers that have fired. -/
structure ServerLog where
  server : TcpServer
  fired : List Nat

def firing : ServerEvent → List Nat
  | .timer id => [id]
  | .accept _ | .readable _ _ _ | .failedCall _ => []

def serverStep (l : ServerLog) (event : ServerEvent) : Option ServerLog :=
  (l.server.step event).map fun next => ⟨next, l.fired ++ firing event⟩

/-- No timer has fired twice, and there are no more of them than closes whose timer has not
fired. -/
structure EndOnce (l : ServerLog) : Prop where
  once : l.fired.Nodup
  bounded : l.server.evb.timeEvents.length + l.fired.length ≤ closes l.server.objects

/-- The step is not that of a timer. -/
def Quiet (_ : ServerLog) (event : ServerEvent) : Prop := firing event = []

private theorem closes_append (objects : List PeerObject) (added : PeerObject) :
    closes (objects ++ [added]) = closes objects + added.effects.countP isPeerClose := by
  rw [closes, List.flatMap_append, List.countP_append, List.flatMap_singleton]
  rfl

/-- A peer made further calls. -/
theorem closes_set {objects : List PeerObject} (calls : List PeerEffect)
    (found : objects[p]? = some object) (grown : changed.effects = object.effects ++ calls) :
    closes (objects.set p changed) = closes objects + calls.countP isPeerClose := by
  obtain ⟨inside, rfl⟩ := List.getElem?_eq_some_iff.mp found
  have split : objects = objects.take p ++ objects[p] :: objects.drop (p + 1) := by
    rw [List.cons_getElem_drop_succ, List.take_append_drop]
  have before : closes objects = closes (objects.take p) +
      (objects[p].effects.countP isPeerClose + closes (objects.drop (p + 1))) := by
    conv_lhs => rw [split, closes, List.flatMap_append, List.countP_append, List.flatMap_cons,
      List.countP_append]
    rfl
  rw [List.set_eq_take_append_cons_drop, if_pos inside, before, closes, List.flatMap_append,
    List.countP_append, List.flatMap_cons, List.countP_append, grown, List.countP_append]
  simp only [closes]
  omega

/-- Reading data closes nothing. -/
theorem dataTurn_calls (turn : DataTurn s bytes input next) :
    ∃ calls, next.effects = s.effects ++ calls ∧ calls.countP isPeerClose = 0 := by
  obtain ⟨traces, signal, grown, onlyTraces, done⟩ := turn.effects
  have traced : traces.countP isPeerClose = 0 := by
    refine List.countP_eq_zero.mpr fun effect member => ?_
    obtain ⟨_, _, _, rfl⟩ := onlyTraces effect member
    exact Bool.false_ne_true
  have signalled : signal.countP isPeerClose = 0 := by
    split at done
    · obtain ⟨written, rfl, rfl | ⟨_, _, _, rfl⟩⟩ := done <;> rfl
    · rw [done]
      rfl
  refine ⟨_, grown, ?_⟩
  rw [List.countP_cons_of_neg Bool.false_ne_true, List.countP_append, traced, signalled]

/-- Every close has made a timer, and none has ended. -/
structure Counted (listenfd : Int) (s : TcpServer) : Prop where
  inv : ServerInv listenfd s
  counted : s.evb.timeEvents.length = closes s.objects

private theorem closes_deletePeerList (inv : ServerInv listenfd s) :
    closes s.deletePeerList.objects = closes s.objects := by
  refine (inv.deletes (P := fun mid => closes mid.objects = closes s.objects) rfl ?_
    s.waitForDelele fun _ member => member).2
  intro mid p object same found _
  rw [← same]
  exact closes_set [] found (List.append_nil _).symm

private theorem Counted.step (held : Counted listenfd s) (took : s.step event = some next) :
    Counted listenfd next := by
  refine ⟨held.inv.step took, ?_⟩
  have counted := held.counted
  cases held.inv.moves took with
  | @acceptNew fd natural unopened allowed unknown =>
    exact counted.trans (closes_append s.objects (accepted fd)).symm
  | @acceptStale fd natural unopened allowed known =>
    exact counted.trans (closes_append s.objects (refused fd _)).symm
  | data found result turn =>
    obtain ⟨calls, grown, none⟩ := dataTurn_calls turn
    rw [closes_set calls found grown, none]
    exact counted
  | @fatal fd p object now input positive client polled registered found other final =>
    rw [afterFatal]
    dsimp only
    rw [closes_set [.peerClose fd, .close fd] found rfl, ← counted]
    rfl
  | timer => rw [held.inv.deletePeerList.2, counted, closes_deletePeerList held.inv]
  | acceptFailed | acceptBeyond | waits | failedCall => exact counted

private theorem aeCreateFileEvent_timers {loop next : EventLoop δ τ}
    (created : loop.aeCreateFileEvent fd mask clientData = .ok next) :
    next.timeEvents = loop.timeEvents := by
  unfold EventLoop.aeCreateFileEvent EventLoop.aeApiAddEvent at created
  split at created
  · cases created
  · dsimp only at created
    split at created
    · cases created
    · rename_i added
      cases created
      split at added
      · cases added
      · cases added
        rfl

private theorem createSocket_counted (listenfd epfd : Int) (counter : Option PeerCouner) :
    Counted listenfd (createSocket listenfd epfd counter) := by
  refine ⟨createSocket_inv listenfd epfd counter, ?_⟩
  rw [createSocket]
  dsimp only
  split
  · rename_i evb created
    rw [aeCreateFileEvent_timers created]
    rfl
  · rfl

/-- No timer has fired yet. -/
structure Unfired (listenfd : Int) (l : ServerLog) : Prop where
  server : Counted listenfd l.server
  none : l.fired = []

private theorem Unfired.endOnce (held : Unfired listenfd l) : EndOnce l := by
  constructor
  · rw [held.none]
    exact List.nodup_nil
  · rw [held.none, held.server.counted]
    rfl

private theorem quiet_unfired (held : Unfired listenfd l) (quiet : Quiet l event)
    (took : serverStep l event = some next) : Unfired listenfd next := by
  obtain ⟨server, stepped, rfl⟩ := Option.map_eq_some_iff.mp took
  refine ⟨held.server.step stepped, ?_⟩
  rw [held.none, quiet]
  rfl

/-- A timer that fires is still counted afterwards. -/
theorem fired_not_endOnce (held : Unfired listenfd l) (loud : ¬ Quiet l event)
    (took : serverStep l event = some next) : ¬ EndOnce next := by
  obtain ⟨server, stepped, rfl⟩ := Option.map_eq_some_iff.mp took
  intro ends
  have bounded := ends.bounded
  dsimp only at bounded
  rw [(held.server.step stepped).counted, held.none, List.nil_append] at bounded
  have some := List.length_pos_iff.mpr loud
  omega

/-- All through a run no timer outlives its work exactly if no timer fires at all. -/
theorem server_timers_iff (listenfd epfd : Int) (counter : Option PeerCouner)
    (ran : run serverStep ⟨createSocket listenfd epfd counter, []⟩ events = some l) :
    Always serverStep EndOnce ⟨createSocket listenfd epfd counter, []⟩ events ↔
      Along serverStep Quiet ⟨createSocket listenfd epfd counter, []⟩ events := by
  have begins : Unfired listenfd ⟨createSocket listenfd epfd counter, []⟩ :=
    ⟨createSocket_counted listenfd epfd counter, rfl⟩
  exact always_iff_along begins (fun _ held => held.endOnce)
    (fun _ _ _ held quiet took => quiet_unfired held quiet took)
    (fun _ _ _ held loud took => fired_not_endOnce held loud took) ran

/-! ### The passes of its loop -/

/-- `DeletePeerTimer` as a callback of the loop. -/
def deleteProc : TimeProc TcpServer Unit := fun s _ _ =>
  let (next, retval) := s.deletePeerTimer
  some (next, [], retval)

private theorem find_member {id : Nat} {events : List (TimeEvent τ)}
    (found : events.find? (·.id = id) = some event) : id ∈ events.map (·.id) :=
  List.mem_map.mpr ⟨event, List.mem_of_find?_eq_some found, by simpa using List.find?_some found⟩

private theorem deleteProc_fires {id : Nat} (inv : ServerInv listenfd s)
    (fired : fire deleteProc (s, s.evb) id = some (next, loop)) :
    s.step (.timer id) = some next ∧ next.evb = s.evb ∧ loop = s.evb := by
  rw [fire] at fired
  split at fired
  · cases fired
  · rename_i event found
    cases fired
    refine ⟨?_, inv.deletePeerList.2, rfl⟩
    rw [TcpServer.step, if_pos (find_member found)]
    rfl

private theorem deleteProc_runs (inv : ServerInv listenfd s)
    (ran : run (fire deleteProc) (s, s.evb) ids = some (next, loop)) :
    run TcpServer.step s (ids.map .timer) = some next ∧ next.evb = s.evb ∧ loop = s.evb := by
  induction ids generalizing s with
  | nil =>
    cases ran
    exact ⟨rfl, rfl, rfl⟩
  | cons id rest ih =>
    obtain ⟨⟨mid, between⟩, fired, onward⟩ := run_cons.mp ran
    obtain ⟨stepped, same, rfl⟩ := deleteProc_fires inv fired
    rw [← same] at onward ⊢
    obtain ⟨steps, kept⟩ := ih (inv.step stepped) onward
    exact ⟨run_cons.mpr ⟨mid, stepped, steps⟩, kept⟩

/-- A pass of the loop is a run of the server in which the timers it fired fire. None of them
ends. -/
theorem server_pass (inv : ServerInv listenfd s)
    (holds : Represents timers.timeEventNextId timers.timeEventHead s.evb)
    (processed : processTimeEvents deleteProc clock now s timers = some (next, after, fired)) :
    run TcpServer.step s (fired.map .timer) = some next ∧ next.evb = s.evb ∧
      Represents after.timeEventNextId after.timeEventHead next.evb := by
  obtain ⟨last, ran, kept⟩ := processTimeEvents_refines holds processed
  obtain ⟨steps, same, rfl⟩ := deleteProc_runs inv ran
  exact ⟨steps, same, same ▸ kept⟩

/-- A pass that comes late enough calls `DeletePeerTimer` once for every close there has been,
and leaves as many calls to the next. -/
theorem server_pass_fires_all (held : Counted listenfd s)
    (holds : Represents timers.timeEventNextId timers.timeEventHead s.evb)
    (passed : ∀ te ∈ rewound now timers, ∀ reading, Passed (clock reading) te.due)
    (processed : processTimeEvents deleteProc clock now s timers = some (next, after, fired)) :
    fired.length = closes s.objects ∧ closes next.objects = closes s.objects ∧
      next.evb.timeEvents.map (·.id) = fired := by
  have all := processTimeEvents_fires holds passed processed
  obtain ⟨ran, same, _⟩ := server_pass held.inv holds processed
  have kept : Counted listenfd next :=
    run_invariant held (fun _ _ _ counted took => counted.step took) ran
  refine ⟨?_, ?_, ?_⟩
  · rw [all, List.length_map, held.counted]
  · rw [← kept.counted, same, held.counted]
  · rw [same, all]

/-! ## The client -/

/-- `Random::nextInt`, on the word the generator gives. -/
def nextInt (word : UInt32) (min max : Int) : Int :=
  ((word >>> 1).toNat : Int).tmod (max - min) + min

/-- A client and the part of the loop that is its own. -/
structure TimedClient where
  state : ClientState
  loop : EventLoop Unit Unit

inductive ClientCall where
  | method (method : ClientDescriptors.Method)
  | timer (id : Nat) (script : List WriteResult) (word : UInt32)

/-- What a call of the client does to the loop's time events. -/
def perform (loop : EventLoop Unit Unit) : ClientEffect → EventLoop Unit Unit
  | .createTimeEvent => loop.aeCreateTimeEvent ()
  | _ => loop

def clientStep (s : TimedClient) : ClientCall → Option TimedClient
  | .method method => (ClientDescriptors.step s.state method).map fun next =>
    ⟨next, (next.effects.drop s.state.effects.length).foldl perform s.loop⟩
  | .timer id script word =>
    if id ∈ s.loop.timeEvents.map (·.id) then
      (s.state.nextWriteTime script (nextInt word 0 10)).map fun (next, retval) =>
        ⟨next, s.loop.timeProcReturned id retval⟩
    else none

/-- The socket is closed or everything was sent. -/
def Finished (s : ClientState) : Prop :=
  s.client.sockfd ≤ 0 ∨ s.client.sendByte = s.client.totalByte

/-- The callback ends the timer of a finished client and keeps that of any other. -/
def EndsWhenDone (s : TimedClient) : ClientCall → Prop
  | .method _ => True
  | .timer id script word => ∀ next retval,
    s.state.nextWriteTime script (nextInt word 0 10) = some (next, retval) →
      let left := (s.loop.timeProcReturned id retval).timeEvents.map (·.id)
      (Finished s.state → retval = AE_NOMORE ∧ id ∉ left) ∧
        (0 < s.state.client.sockfd → s.state.client.sendByte < s.state.client.totalByte →
          retval ≠ AE_NOMORE ∧ id ∈ left)

/-- The callback finds something to send. -/
def Busy (s : TimedClient) : ClientCall → Prop
  | .method _ => True
  | .timer _ _ _ => ¬ Finished s.state

private theorem nextInt_range (word : UInt32) : 0 ≤ nextInt word 0 10 ∧ nextInt word 0 10 < 10 := by
  rw [nextInt, Int.tmod_eq_emod_of_nonneg (by omega)]
  omega

private theorem getBatchSize_eq_zero_iff (client : TcpClient) :
    client.getBatchSize = 0 ↔ client.sendByte = client.totalByte := by
  have zero : (client.totalByte - client.sendByte).toInt32.toInt = 0 ↔
      client.totalByte - client.sendByte = 0 := by
    rw [← UInt32.toNat_inj]
    have bound := (client.totalByte - client.sendByte).toNat_lt
    rw [Words.toInt32_toInt, UInt32.toNat_zero]
    split <;> omega
  have batch : client.getBatchSize = 0 ↔
      (client.totalByte - client.sendByte).toInt32.toInt = 0 := by
    simp only [TcpClient.getBatchSize, kPacketBatchSize, maxLine]
    omega
  rw [batch, zero, UInt32.sub_eq_iff_eq_add, UInt32.zero_add, eq_comm]

private theorem nextWriteTime_finished (finished : Finished s) (script : List WriteResult)
    (nextTimems : Int) : s.nextWriteTime script nextTimems = some (s, 0) := by
  rw [ClientState.nextWriteTime]
  rcases finished with closed | sent
  · rw [if_pos closed]
  · split
    · rfl
    · rw [if_pos ((getBatchSize_eq_zero_iff s.client).mpr sent)]

private theorem nextWriteTime_busy (busy : ¬ Finished s)
    (returned : s.nextWriteTime script nextTimems = some (next, retval)) :
    retval = nextTimems := by
  rw [Finished, not_or] at busy
  have more : s.client.getBatchSize ≠ 0 := fun zero =>
    busy.2 ((getBatchSize_eq_zero_iff s.client).mp zero)
  rw [ClientState.nextWriteTime, if_neg busy.1, if_neg more] at returned
  have last : ∀ {mid : ClientState} {answers : List WriteResult},
      (mid.writeBatch answers).map (·, nextTimems) = some (next, retval) → retval = nextTimems := by
    intro mid answers done
    obtain ⟨_, _, same⟩ := Option.map_eq_some_iff.mp done
    exact (Prod.mk.inj same).2.symm
  split at returned
  · exact last returned
  · split at returned
    · cases returned
    · split at returned
      · exact last returned
      · cases returned

/-- The callback of a finished client asks to be called again at once. -/
theorem endsWhenDone_iff_busy (took : clientStep s call = some next) :
    EndsWhenDone s call ↔ Busy s call := by
  cases call with
  | method method => exact Iff.rfl
  | timer id script word =>
    rw [clientStep, Option.ite_none_right_eq_some] at took
    obtain ⟨member, _⟩ := took
    constructor
    · intro ends finished
      have returned := nextWriteTime_finished finished script (nextInt word 0 10)
      exact absurd ((ends _ _ returned).1 finished).1 (by decide)
    · intro busy next retval returned
      have range := nextInt_range word
      rw [← nextWriteTime_busy busy returned] at range
      have goes : retval ≠ AE_NOMORE := by rw [AE_NOMORE]; omega
      refine ⟨fun finished => absurd finished busy, fun _ _ => ⟨goes, ?_⟩⟩
      rw [EventLoop.timeProcReturned, if_neg goes]
      exact member

/-! ### The passes of its loop -/

/-- What a client's callbacks are answered, one after the other. -/
abbrev Answers := List (List WriteResult × UInt32)

def answer (answers : Answers) : List WriteResult × UInt32 := answers.head?.getD ([], 0)

/-- `WriteEventTimer` as a callback of the loop. -/
def writeProc : TimeProc (ClientState × Answers) Unit := fun (s, answers) _ _ =>
  (s.nextWriteTime (answer answers).1 (nextInt (answer answers).2 0 10)).map
    fun (next, retval) => ((next, answers.tail), [], retval)

def timerCalls : List Nat → Answers → List ClientCall
  | [], _ => []
  | id :: rest, answers =>
    .timer id (answer answers).1 (answer answers).2 :: timerCalls rest answers.tail

private theorem writeProc_fires {id : Nat} {loop last : EventLoop Unit Unit}
    (fired : fire writeProc ((s, answers), loop) id = some ((next, left), last)) :
    clientStep ⟨s, loop⟩ (.timer id (answer answers).1 (answer answers).2) = some ⟨next, last⟩ ∧
      left = answers.tail := by
  rw [fire] at fired
  split at fired
  · cases fired
  · rename_i event found
    have member := find_member found
    obtain ⟨⟨_, _, retval⟩, called, same⟩ := Option.map_eq_some_iff.mp fired
    obtain ⟨⟨reached, time⟩, returned, shape⟩ := Option.map_eq_some_iff.mp called
    cases shape
    cases same
    refine ⟨?_, rfl⟩
    rw [clientStep, if_pos member, returned]
    rfl

private theorem writeProc_runs {loop last : EventLoop Unit Unit}
    (ran : run (fire writeProc) ((s, answers), loop) ids = some ((next, left), last)) :
    run clientStep ⟨s, loop⟩ (timerCalls ids answers) = some ⟨next, last⟩ := by
  induction ids generalizing s answers loop with
  | nil =>
    cases ran
    rfl
  | cons id rest ih =>
    obtain ⟨⟨⟨mid, fewer⟩, between⟩, fired, onward⟩ := run_cons.mp ran
    obtain ⟨stepped, rfl⟩ := writeProc_fires fired
    exact run_cons.mpr ⟨_, stepped, ih onward⟩

/-- A pass of the loop is a run of the client in which the timers it fired fire. -/
theorem client_pass {loop : EventLoop Unit Unit}
    (holds : Represents timers.timeEventNextId timers.timeEventHead loop)
    (processed : processTimeEvents writeProc clock now (s, answers) timers =
      some ((next, left), after, fired)) :
    ∃ last, run clientStep ⟨s, loop⟩ (timerCalls fired answers) = some ⟨next, last⟩ ∧
      Represents after.timeEventNextId after.timeEventHead last := by
  obtain ⟨last, ran, kept⟩ := processTimeEvents_refines holds processed
  exact ⟨last, writeProc_runs ran, kept⟩

/-! ## Both -/

/-- Timers end when their work ends in the runs in which no peer is deleted by a timer and no
client's timer finds it finished, and in no others. -/
theorem timers_end_iff (listenfd epfd : Int) (counter : Option PeerCouner)
    (events : List ServerEvent) (l : ServerLog)
    (served : run serverStep ⟨createSocket listenfd epfd counter, []⟩ events = some l)
    (cid length : UInt32) (errno : Errno) (setsize : Int) (calls : List ClientCall)
    (c : TimedClient) (sent : run clientStep ⟨ClientDescriptors.constructed cid length errno,
      EventLoop.aeCreateEventLoop setsize⟩ calls = some c) :
    (Always serverStep EndOnce ⟨createSocket listenfd epfd counter, []⟩ events ↔
      Along serverStep Quiet ⟨createSocket listenfd epfd counter, []⟩ events) ∧
    (Along clientStep EndsWhenDone ⟨ClientDescriptors.constructed cid length errno,
        EventLoop.aeCreateEventLoop setsize⟩ calls ↔
      Along clientStep Busy ⟨ClientDescriptors.constructed cid length errno,
        EventLoop.aeCreateEventLoop setsize⟩ calls) :=
  ⟨server_timers_iff listenfd epfd counter served,
    along_congr sent fun _ _ _ took => endsWhenDone_iff_busy took⟩

instance (l : ServerLog) (event : ServerEvent) : Decidable (Quiet l event) :=
  inferInstanceAs (Decidable (_ = _))

instance (s : ClientState) : Decidable (Finished s) := inferInstanceAs (Decidable (_ ∨ _))

instance (s : TimedClient) : (call : ClientCall) → Decidable (Busy s call)
  | .method _ => instDecidableTrue
  | .timer _ _ _ => inferInstanceAs (Decidable (¬ _))

/-- A connection that is accepted and ends. -/
def closing : List ServerEvent :=
  [.accept (.ok 5), .readable 5 0 ⟨.eof, 0, 0, .accepted 0⟩]

/-- A client that connects. -/
def connecting : List ClientCall :=
  [.method (.bind (.ok 5) true none none), .method (.synConnect (.ok ())),
    .method (.notifiConnect true none)]

/-- A close whose timer is still to come, and a callback that sends all there is. -/
theorem unfinished_timers_right :
    Always serverStep EndOnce ⟨createSocket 3 4 none, []⟩ closing ∧
    Along clientStep EndsWhenDone
      ⟨ClientDescriptors.constructed 7 2800 0, EventLoop.aeCreateEventLoop 64⟩
      (connecting ++ [.timer 0 [.accepted 1400, .accepted 1400] 42]) := by
  obtain ⟨l, served⟩ : ∃ l, run serverStep ⟨createSocket 3 4 none, []⟩ closing = some l :=
    Option.isSome_iff_exists.mp (by decide +kernel)
  obtain ⟨c, sent⟩ : ∃ c, run clientStep
      ⟨ClientDescriptors.constructed 7 2800 0, EventLoop.aeCreateEventLoop 64⟩
      (connecting ++ [.timer 0 [.accepted 1400, .accepted 1400] 42]) = some c :=
    Option.isSome_iff_exists.mp (by decide +kernel)
  obtain ⟨server, client⟩ := timers_end_iff 3 4 none closing l served 7 2800 0 64 _ c sent
  exact ⟨server.mpr (by decide +kernel), client.mpr (by decide +kernel)⟩

/-- The timer of one close fires twice and is still there; the timer of a client that was
closed asks to be called again at once. -/
theorem finished_timers_stay :
    (∃ l, run serverStep ⟨createSocket 3 4 none, []⟩ (closing ++ [.timer 0, .timer 0]) = some l ∧
      closes l.server.objects = 1 ∧ l.fired = [0, 0] ∧
      l.server.evb.timeEvents.map (·.id) = [0] ∧ ¬ EndOnce l) ∧
    ∃ c, run clientStep ⟨ClientDescriptors.constructed 7 2800 0, EventLoop.aeCreateEventLoop 64⟩
        (connecting ++ [.method (.close none)]) = some c ∧
      c.state.client.sockfd = 0 ∧ c.state.nextWriteTime [] (nextInt 42 0 10) = some (c.state, 0) ∧
      ((clientStep c (.timer 0 [] 42)).map fun next => next.loop.timeEvents.map (·.id)) =
        some [0] ∧ ¬ EndsWhenDone c (.timer 0 [] 42) := by
  constructor
  · have evaluated : (run serverStep ⟨createSocket 3 4 none, []⟩
        (closing ++ [.timer 0, .timer 0])).any (fun l => decide (closes l.server.objects = 1 ∧
          l.fired = [0, 0] ∧ l.server.evb.timeEvents.map (·.id) = [0])) = true := by
      decide +kernel
    obtain ⟨l, ran, facts⟩ := Option.any_eq_true _ _ |>.mp evaluated
    obtain ⟨one, twice, stays⟩ := of_decide_eq_true facts
    refine ⟨l, ran, one, twice, stays, fun ends => ?_⟩
    have once := ends.once
    rw [twice] at once
    exact absurd once (by decide)
  · have evaluated : (run clientStep
        ⟨ClientDescriptors.constructed 7 2800 0, EventLoop.aeCreateEventLoop 64⟩
        (connecting ++ [.method (.close none)])).any (fun c => decide (c.state.client.sockfd = 0 ∧
          ((clientStep c (.timer 0 [] 42)).map fun next => next.loop.timeEvents.map (·.id)) =
            some [0])) = true := by
      decide +kernel
    obtain ⟨c, ran, facts⟩ := Option.any_eq_true _ _ |>.mp evaluated
    obtain ⟨closed, stays⟩ := of_decide_eq_true facts
    have finished : Finished c.state := .inl (Int.le_of_eq closed)
    have returned := nextWriteTime_finished finished [] (nextInt 42 0 10)
    refine ⟨c, ran, closed, returned, stays, fun ends => ?_⟩
    exact absurd ((ends _ _ returned).1 finished).1 (by decide)

end TcpCongestion.Timers
