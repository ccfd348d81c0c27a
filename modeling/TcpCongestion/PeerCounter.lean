import TcpCongestion.ReceiverChunking
import TcpCongestion.TcpServerProofs

/-! The count of finished connections on the server. A peer reports itself in
the first read that brings its count to its total and never again, whatever it
is sent, so the counter is the number it was created with less the peers that
have finished. -/
namespace TcpCongestion.PeerCounter
open Posix Runs TcpPeerProofs ReceiverChunking TcpServer TcpServerProofs

/-- The pieces a peer has read, in order. -/
def reads (effects : List PeerEffect) : List (List UInt8) :=
  effects.filterMap fun
    | .read bytes => some bytes
    | _ => none

@[simp] theorem reads_append (before after : List PeerEffect) :
    reads (before ++ after) = reads before ++ reads after :=
  List.filterMap_append

/-- The completion branch was entered in one read: after it the 32-bit count was
at or past the total, and after no earlier one. -/
def FirstReach (total : UInt32) (effects : List PeerEffect) : Prop :=
  ∃ before bytes traces signal after,
    effects = before ++ .read bytes :: (traces ++ signal) ++ after ∧
    Traces traces ∧ DoneCalls signal ∧ ¬ Lands total (reads before) ∧
    total ≤ UInt32.ofNat (reads before ++ [bytes]).flatten.length

/-- The total a connection announced, if its first read held the whole header. -/
def announced (effects : List PeerEffect) : Option UInt32 :=
  (reads effects).head?.bind fun first => (header first).2

/-- A peer's record of itself agrees with the calls it has made. -/
structure Counted (peer : TcpPeer) (effects : List PeerEffect) : Prop where
  firstPacket : peer.firstPacket = (reads effects).isEmpty
  totalByte : ∀ total, announced effects = some total → peer.totalByte = total
  recvByte : peer.recvByte = UInt32.ofNat (reads effects).flatten.length
  sendReadDone : peer.sendReadDone = true ↔ Lands peer.totalByte (reads effects)
  signals : effects.count .sendDoneSignal = if peer.sendReadDone then 1 else 0
  reports : effects.count .onPeerReadDoneMsg = if peer.sendReadDone then 1 else 0
  first : peer.sendReadDone = true → FirstReach peer.totalByte effects

/-- Calls that are neither reads nor part of the completion branch. -/
def Plain (effects : List PeerEffect) : Prop :=
  reads effects = [] ∧ effects.count .sendDoneSignal = 0 ∧ effects.count .onPeerReadDoneMsg = 0

private theorem traces_plain (traces : Traces effects) : Plain effects := by
  refine ⟨List.filterMap_eq_nil_iff.mpr ?_, List.count_eq_zero.mpr ?_, List.count_eq_zero.mpr ?_⟩
  · intro effect member
    obtain ⟨_, _, _, rfl⟩ := traces effect member
    rfl
  · intro member
    obtain ⟨_, _, _, same⟩ := traces _ member
    cases same
  · intro member
    obtain ⟨_, _, _, same⟩ := traces _ member
    cases same

private theorem doneCalls_counts (calls : DoneCalls effects) : reads effects = [] ∧
    effects.count .sendDoneSignal = 1 ∧ effects.count .onPeerReadDoneMsg = 1 := by
  obtain ⟨written, rfl, rfl | ⟨bytes, _, _, rfl⟩⟩ := calls <;> exact ⟨rfl, rfl, rfl⟩

private theorem FirstReach.append (reach : FirstReach total effects) (calls : List PeerEffect) :
    FirstReach total (effects ++ calls) := by
  obtain ⟨before, bytes, traces, signal, after, rfl, rest⟩ := reach
  exact ⟨before, bytes, traces, signal, after ++ calls, by simp, rest⟩

/-- Closing, deleting and tracing change nothing that counts. -/
theorem Counted.plain (held : Counted peer effects) (plain : Plain calls) (sockfd : Int)
    (tracRecv : Bool) : Counted { peer with sockfd, tracRecv } (effects ++ calls) := by
  obtain ⟨noReads, noSignal, noReport⟩ := plain
  constructor
  · rw [reads_append, noReads, List.append_nil]; exact held.firstPacket
  · rw [announced, reads_append, noReads, List.append_nil]; exact held.totalByte
  · rw [reads_append, noReads, List.append_nil]; exact held.recvByte
  · rw [reads_append, noReads, List.append_nil]; exact held.sendReadDone
  · rw [List.count_append, noSignal]; exact held.signals
  · rw [List.count_append, noReport]; exact held.reports
  · exact fun done => (held.first done).append calls

private theorem data_reads (turn : DataTurn s bytes input next) :
    reads next.effects = reads s.effects ++ [bytes] := by
  obtain ⟨traces, signal, effects, only, calls⟩ := turn.effects
  have quiet : reads signal = [] := by
    split at calls
    · exact (doneCalls_counts calls).1
    · rw [calls]; rfl
  rw [effects, reads_append, ← List.singleton_append, reads_append, reads_append,
    (traces_plain only).1, quiet]
  rfl

private theorem data_done_iff (turn : DataTurn s bytes input next) :
    next.peer.sendReadDone = true ↔
      s.peer.sendReadDone = true ∨ next.peer.totalByte ≤ next.peer.recvByte := by
  rw [turn.sendReadDone, Bool.or_eq_true, decide_eq_true_iff]

/-- Each call of the completion branch is made when `sendReadDone_` is set and at no other time. -/
theorem data_count (turn : DataTurn s bytes input next)
    (mark : effect = .sendDoneSignal ∨ effect = .onPeerReadDoneMsg)
    (before : s.effects.count effect = if s.peer.sendReadDone then 1 else 0) :
    next.effects.count effect = if next.peer.sendReadDone then 1 else 0 := by
  obtain ⟨traces, signal, effects, only, calls⟩ := turn.effects
  obtain ⟨_, noSignal, noReport⟩ := traces_plain only
  have counts : next.effects.count effect = s.effects.count effect + signal.count effect := by
    rcases mark with rfl | rfl
    · simp [effects, noSignal]
    · simp [effects, noReport]
  rw [counts, before]
  split at calls
  · rename_i fresh
    have once : signal.count effect = 1 := by
      rcases mark with rfl | rfl
      · exact (doneCalls_counts calls).2.1
      · exact (doneCalls_counts calls).2.2
    rw [once, fresh.1, (data_done_iff turn).mpr (.inr fresh.2)]
    rfl
  · rename_i stale
    rw [calls, turn.sendReadDone]
    cases done : s.peer.sendReadDone with
    | true => rfl
    | false =>
      have short : ¬ next.peer.totalByte ≤ next.peer.recvByte := fun long => stale ⟨done, long⟩
      simp [short]

private theorem Counted.recvByte_data (held : Counted s.peer s.effects)
    (turn : DataTurn s bytes input next) :
    next.peer.recvByte = UInt32.ofNat (reads next.effects).flatten.length := by
  rw [turn.recvByte, held.recvByte, ← UInt32.ofNat_add, data_reads turn]
  simp

/-- The total is fixed by the first read, before which nothing can have landed. -/
theorem Counted.lands_data (held : Counted s.peer s.effects)
    (turn : DataTurn s bytes input next) :
    Lands next.peer.totalByte (reads s.effects) ↔ s.peer.sendReadDone = true := by
  rw [held.sendReadDone, turn.totalByte, held.firstPacket]
  cases pieces : reads s.effects with
  | nil => simp [Lands]
  | cons piece rest => simp

/-- A peer that has finished has read its header. -/
theorem Counted.firstPacket_done (held : Counted peer effects)
    (done : peer.sendReadDone = true) : peer.firstPacket = false := by
  obtain ⟨_, some_read, part, _⟩ := held.sendReadDone.mp done
  rw [held.firstPacket, List.isEmpty_eq_false_iff]
  intro empty
  rw [empty, List.prefix_nil] at part
  exact some_read part

private theorem Counted.first_data (held : Counted s.peer s.effects)
    (turn : DataTurn s bytes input next)
    (done : next.peer.sendReadDone = true) : FirstReach next.peer.totalByte next.effects := by
  obtain ⟨traces, signal, effects, only, calls⟩ := turn.effects
  cases before : s.peer.sendReadDone with
  | true =>
    have total : next.peer.totalByte = s.peer.totalByte := by
      rw [turn.totalByte, held.firstPacket_done before]
      rfl
    rw [total, effects]
    exact (held.first before).append _
  | false =>
    have reached := ((data_done_iff turn).mp done).resolve_left (by simp [before])
    rw [if_pos ⟨before, reached⟩] at calls
    refine ⟨s.effects, bytes, traces, signal, [], by simp [effects], only, calls, ?_, ?_⟩
    · rw [held.lands_data turn, before]
      exact Bool.false_ne_true
    · rw [← data_reads turn, ← held.recvByte_data turn]
      exact reached

/-- The first read fixes the total. -/
theorem Counted.totalByte_data (held : Counted s.peer s.effects)
    (turn : DataTurn s bytes input next) (known : announced next.effects = some total) :
    next.peer.totalByte = total := by
  rw [announced, data_reads turn] at known
  rw [turn.totalByte, held.firstPacket]
  cases pieces : reads s.effects with
  | nil =>
    rw [pieces] at known
    exact (if_pos rfl).trans (by rw [show (header bytes).2 = some total from known]; rfl)
  | cons first rest =>
    rw [pieces] at known
    have same := held.totalByte total
    rw [announced, pieces] at same
    exact (if_neg (by simp)).trans (same known)

/-- One more read. -/
theorem Counted.data (held : Counted s.peer s.effects) (turn : DataTurn s bytes input next) :
    Counted next.peer next.effects where
  firstPacket := by rw [turn.firstPacket, data_reads turn]; simp
  totalByte _ := held.totalByte_data turn
  recvByte := held.recvByte_data turn
  sendReadDone := by
    rw [data_done_iff turn, data_reads turn, lands_concat, ← data_reads turn,
      ← held.recvByte_data turn, held.lands_data turn]
  signals := data_count turn (.inl rfl) held.signals
  reports := data_count turn (.inr rfl) held.reports
  first := held.first_data turn

/-! ## All peers of a server -/

/-- The peers, among all ever accepted, that have set `sendReadDone_`. -/
def finished (s : TcpServer) : Nat := s.objects.countP (·.peer.sendReadDone)

/-- The peers, among all ever accepted, whose count was at or past their total after one of
their reads. -/
def landed (s : TcpServer) : Nat :=
  s.objects.countP fun object => decide (Lands object.peer.totalByte (reads object.effects))

structure Tally (flows : Int32) (s : TcpServer) : Prop where
  objects : ∀ object ∈ s.objects, Counted object.peer object.effects
  counter : s.counter = some ((⟨flows⟩ : PeerCouner).decreaseBy (finished s))

theorem Tally.finished_eq (held : Tally flows s) : finished s = landed s := by
  apply List.countP_congr
  intro object member
  rw [decide_eq_true_iff]
  exact (held.objects object member).sendReadDone

/-- One peer has moved on, and the counter with it if it finished. -/
theorem Tally.set (held : Tally flows s) (found : s.objects[p]? = some object)
    (objects : next.objects = s.objects.set p changed)
    (counted : Counted changed.peer changed.effects)
    (keeps : object.peer.sendReadDone = true → changed.peer.sendReadDone = true)
    (counter : next.counter =
      if object.peer.sendReadDone = false ∧ changed.peer.sendReadDone = true
        then s.counter.map Couner.decrease else s.counter) : Tally flows next := by
  obtain ⟨inside, same⟩ := List.getElem?_eq_some_iff.mp found
  constructor
  · intro other member
    rw [objects] at member
    rcases List.mem_or_eq_of_mem_set member with old | rfl
    · exact held.objects other old
    · exact counted
  · have count : finished next = finished s - (if object.peer.sendReadDone then 1 else 0) +
        (if changed.peer.sendReadDone then 1 else 0) := by
      rw [finished, objects, List.countP_set inside, same]
      rfl
    rw [counter, count, held.counter]
    cases was : object.peer.sendReadDone with
    | false => cases changed.peer.sendReadDone <;> simp [Couner.decreaseBy]
    | true =>
      have positive : 0 < finished s :=
        List.countP_pos_iff.mpr ⟨object, same ▸ List.getElem_mem inside, was⟩
      rw [keeps was, if_neg (by simp), if_pos rfl, Nat.sub_add_cancel positive]

/-- A new peer has not finished. -/
theorem Tally.append (held : Tally flows s) (objects : next.objects = s.objects ++ [added])
    (counted : Counted added.peer added.effects) (fresh : added.peer.sendReadDone = false)
    (counter : next.counter = s.counter) : Tally flows next := by
  constructor
  · intro other member
    rw [objects] at member
    rcases List.mem_append.mp member with old | new
    · exact held.objects other old
    · rw [List.mem_singleton.mp new]
      exact counted
  · have same : finished next = finished s := by
      rw [finished, objects, List.countP_append]
      simp [fresh, finished]
    rw [counter, same, held.counter]

private theorem fresh_counted (sockfd : Int) (tracRecv : Bool) (plain : Plain effects) :
    Counted { sockfd, tracRecv } effects := by
  have empty : Counted { sockfd, tracRecv } [] :=
    ⟨rfl, by simp [announced, reads], rfl, by simp +contextual [Lands, reads], rfl, rfl, by simp⟩
  exact empty.plain plain sockfd tracRecv

/-- Deleting a peer that has closed leaves the tally. -/
theorem Tally.retire (held : Tally flows s) (found : s.objects[p]? = some object) :
    Tally flows { s with objects := s.objects.set p (retired object) } := by
  have counted := held.objects object (List.mem_of_getElem? found)
  have plain := counted.plain (⟨rfl, rfl, rfl⟩ : Plain []) object.peer.sockfd false
  rw [List.append_nil] at plain
  exact held.set found rfl plain (fun done => done) (by simp [retired])

private theorem Tally.data (held : Tally flows s) (found : s.objects[p]? = some object)
    (turn : DataTurn (s.stateOf object) bytes input after) :
    Tally flows (afterData s p object after) := by
  have counted := held.objects object (List.mem_of_getElem? found)
  have flag := turn.sendReadDone
  have start : (s.stateOf object).peer = object.peer := rfl
  rw [start] at flag
  refine held.set found rfl (Counted.data counted turn)
    (fun done => by rw [flag, done, Bool.true_or]) ?_
  dsimp only [afterData]
  congr 1
  rw [Completes, flag]
  simp +contextual

theorem Tally.step (held : Tally flows s) (inv : ServerInv listenfd s)
    (took : s.step event = some next) : Tally flows next := by
  cases inv.moves took with
  | @acceptNew fd natural unopened allowed unknown =>
    exact held.append rfl (fresh_counted fd true ⟨rfl, rfl, rfl⟩) rfl rfl
  | acceptStale natural unopened allowed known =>
    exact held.append rfl (fresh_counted 0 _ ⟨rfl, rfl, rfl⟩) rfl rfl
  | data found result turn => exact held.data found turn
  | @fatal fd p object now input positive client polled registered found other final =>
    have counted := held.objects object (List.mem_of_getElem? found)
    have closed := counted.plain (⟨rfl, rfl, rfl⟩ : Plain [.peerClose fd, .close fd]) 0 false
    refine held.set found rfl closed (fun done => done) ?_
    simp [afterFatal, shut]
  | timer =>
    have deleted := (inv.deletes held (fun _ _ _ mid found _ => mid.retire found)
      s.waitForDelele fun _ member => member).2
    exact ⟨deleted.objects, deleted.counter⟩
  | acceptFailed | acceptBeyond | waits | failedCall => exact ⟨held.objects, held.counter⟩

/-- The tally is kept from the first accept on. -/
theorem tally_run (listenfd epfd : Int) (flows : Int32)
    (ran : run TcpServer.step (createSocket listenfd epfd (some ⟨flows⟩)) events = some s) :
    Tally flows s := by
  have both : ServerInv listenfd s ∧ Tally flows s := by
    refine run_invariant (P := fun s => ServerInv listenfd s ∧ Tally flows s)
      ⟨createSocket_inv listenfd epfd (some ⟨flows⟩), ?_⟩ ?_ ran
    · exact ⟨by simp [createSocket], rfl⟩
    · rintro mid event next ⟨inv, held⟩ took
      exact ⟨inv.step took, held.step inv took⟩
  exact both.2

/-- In every run, a peer reports completion once if it ever reaches its total,
in the read that first does so, and not at all otherwise; the counter is its
initial value less the peers that have, and reads as done only when there are at
least as many of them as it was created for. -/
theorem completion_counted_once (listenfd epfd : Int) (flows : Int32) (events : List ServerEvent)
    (s : TcpServer)
    (ran : run TcpServer.step (createSocket listenfd epfd (some ⟨flows⟩)) events = some s) :
    (∀ object ∈ s.objects,
      object.effects.count .sendDoneSignal = (if object.peer.sendReadDone then 1 else 0) ∧
      object.effects.count .onPeerReadDoneMsg = (if object.peer.sendReadDone then 1 else 0) ∧
      (object.peer.sendReadDone = true ↔ Lands object.peer.totalByte (reads object.effects)) ∧
      (object.peer.sendReadDone = true → FirstReach object.peer.totalByte object.effects)) ∧
    ∃ counter : PeerCouner, s.counter = some counter ∧
      ((finished s : Int) ≤ flows.toInt + 2 ^ 31 →
        counter.clients.toInt = flows.toInt - finished s) ∧
      (counter.isAllDeactive = true → flows.toInt ≤ finished s) := by
  have held := tally_run listenfd epfd flows ran
  refine ⟨?_, _, held.counter, ?_, ?_⟩
  · intro object member
    have counted := held.objects object member
    exact ⟨counted.signals, counted.reports, counted.sendReadDone, counted.first⟩
  · exact Couner.decreaseBy_toInt ⟨flows⟩ (finished s)
  · exact Couner.isAllDeactive_decreaseBy ⟨flows⟩ (finished s)

/-- Two connections, one of which announces eight bytes and has sent them. -/
def oneOfTwo : List ServerEvent :=
  [.accept (.ok 5), .accept (.ok 6),
   .readable 5 0 ⟨.data (.next 0 [0, 0, 1, 0, 0, 0, 8]), 0, 0, .accepted 14⟩]

theorem one_of_two_counted :
    ∃ s counter, run TcpServer.step (createSocket 3 4 (some ⟨1⟩)) oneOfTwo = some s ∧
      s.counter = some counter ∧ counter.isAllDeactive = true ∧ 1 ≤ finished s := by
  have evaluated : (run TcpServer.step (createSocket 3 4 (some ⟨1⟩)) oneOfTwo).any (fun s =>
      s.counter.any (·.isAllDeactive)) = true := by decide +kernel
  obtain ⟨s, ran, counted⟩ := Option.any_eq_true _ _ |>.mp evaluated
  obtain ⟨counter, present, done⟩ := Option.any_eq_true _ _ |>.mp counted
  obtain ⟨_, value, found, _, enough⟩ := completion_counted_once 3 4 1 oneOfTwo s ran
  cases found.symm.trans present
  have flows : (1 : Int32).toInt = 1 := rfl
  have least := enough done
  exact ⟨s, _, ran, present, done, by omega⟩

end TcpCongestion.PeerCounter
