import TcpCongestion.EndToEnd
import TcpCongestion.TcpServerProofs

/-! A peer on its own. Every call of one read is written down here, in order: the records of the
three reporting rules, and what the socket took of the done message. A peer that a server serves
goes through such a run, so what holds of every run holds of every connection. -/
namespace TcpCongestion.PeerRuns
open Posix Runs TcpPeerProofs TcpServer TcpServerProofs EndToEnd ReceiverChunking

/-! ## The calls of one read -/

/-- The time from which the interval rule reports. -/
def deadline (peer : TcpPeer) (now : Int32) : UInt32 :=
  if peer.firstPacket then (now + klogInterval).toUInt32 else peer.nextTimePrintLog

/-- The records of one read, by the first packet, by the interval and by the completion. -/
def recordCalls (before after : TcpPeer) (now : Int32) : List PeerEffect :=
  (if before.firstPacket then [.onTraceData after.clientId now.toUInt32 before.recvByte]
    else []) ++
  (if deadline before now ≤ now.toUInt32 then
    [.onTraceData after.clientId now.toUInt32 after.recvByte] else []) ++
  if after.totalByte ≤ after.recvByte then
    [.onTraceData after.clientId now.toUInt32 after.recvByte] else []

/-- The message with its terminating NUL. -/
def doneMessage : List UInt8 := doneMsg ++ [0]

/-- What the socket takes of the done message. -/
def doneWritten (result : WriteResult) : List PeerEffect :=
  if result.count 14 = 0 then [] else [.write (doneMessage.take (result.count 14))]

def signalCalls (before after : TcpPeer) (result : WriteResult) : List PeerEffect :=
  if before.sendReadDone = false ∧ after.totalByte ≤ after.recvByte then
    .sendDoneSignal :: doneWritten result ++ [.onPeerReadDoneMsg]
  else []

section Calls

variable {s next : PeerState}

private theorem reportRecvLength_traced (tracing : s.peer.tracRecv = true) (now : UInt32) :
    s.reportRecvLength now = s.emit (.onTraceData s.peer.clientId now s.peer.recvByte) := by
  rw [PeerState.reportRecvLength, if_pos tracing]

/-- The peer after the header branch, and its record. -/
theorem readHeader_calls (tracing : s.peer.tracRecv = true) (now : Int32) (bytes : List UInt8)
    (input : PeerInput) :
    (∃ clientId totalByte, (s.readHeader now bytes input).peer = { s.peer with
      clientId, totalByte, nextTimePrintLog := deadline s.peer now, firstPacket := false }) ∧
    (s.readHeader now bytes input).effects = s.effects ++
      if s.peer.firstPacket then
        [.onTraceData (s.readHeader now bytes input).peer.clientId now.toUInt32 s.peer.recvByte]
      else [] := by
  unfold PeerState.readHeader deadline
  split
  · simp only [PeerState.readFirstPacket]
    rw [reportRecvLength_traced (by exact tracing)]
    exact ⟨⟨_, _, rfl⟩, rfl⟩
  · rename_i later
    rw [Bool.not_eq_true] at later
    exact ⟨⟨s.peer.clientId, s.peer.totalByte, by rw [← later]⟩, by simp⟩

private theorem reportInterval_calls (tracing : s.peer.tracRecv = true) (now : Int32) :
    (s.reportInterval now).peer = { s.peer with nextTimePrintLog :=
      if s.peer.nextTimePrintLog ≤ now.toUInt32 then (now + klogInterval).toUInt32
      else s.peer.nextTimePrintLog } ∧
    (s.reportInterval now).effects = s.effects ++
      if s.peer.nextTimePrintLog ≤ now.toUInt32 then
        [.onTraceData s.peer.clientId now.toUInt32 s.peer.recvByte] else [] := by
  unfold PeerState.reportInterval
  by_cases late : s.peer.nextTimePrintLog ≤ now.toUInt32
  · simp only [ge_iff_le, if_pos late]
    rw [reportRecvLength_traced tracing]
    exact ⟨rfl, rfl⟩
  · simp only [ge_iff_le, if_neg late, List.append_nil, and_self]

/-- On an open socket the write is made. -/
theorem sendDoneSignal_calls (isOpen : 0 < s.peer.sockfd)
    (ran : PeerState.sendDoneSignal s result = some next) :
    next.peer = s.peer ∧ next.effects = s.effects ++ .sendDoneSignal :: doneWritten result := by
  have length : doneMsg.length + 1 = 14 := by decide
  rw [PeerState.sendDoneSignal, PeerState.writeMessage, length,
    doneMsg_buffer_take _ (result.count_le 14)] at ran
  rw [if_neg (by simp only [PeerState.emit]; omega)] at ran
  unfold doneWritten
  split at ran
  · rename_i refused
    dsimp only at ran
    split at ran
    · cases ran
      exact ⟨rfl, by simp [PeerState.emit, refused]⟩
    · cases ran
  · rename_i taken
    cases ran
    exact ⟨rfl, by simp [PeerState.emit, taken, doneMessage]⟩

private theorem checkDone_calls (isOpen : 0 < s.peer.sockfd) (tracing : s.peer.tracRecv = true)
    (ran : PeerState.checkDone s now result = some next) :
    next.effects = s.effects ++
      ((if s.peer.totalByte ≤ s.peer.recvByte then
          [.onTraceData s.peer.clientId now.toUInt32 s.peer.recvByte] else []) ++
        signalCalls s.peer s.peer result) := by
  unfold PeerState.checkDone at ran
  unfold signalCalls
  by_cases complete : s.peer.totalByte ≤ s.peer.recvByte
  · simp only [ge_iff_le, if_pos complete, reportRecvLength_traced tracing] at ran
    cases done : s.peer.sendReadDone with
    | true =>
      simp only [PeerState.emit, done, if_true, Option.some.injEq] at ran
      simp [← ran, complete]
    | false =>
      simp only [PeerState.emit, done, Bool.false_eq_true, if_false] at ran
      obtain ⟨mid, sent, rfl⟩ := Option.map_eq_some_iff.mp ran
      obtain ⟨_, grown⟩ := sendDoneSignal_calls (by exact isOpen) sent
      simp [grown, complete]
  · simp only [ge_iff_le, if_neg complete, Option.some.injEq] at ran
    simp [← ran, complete]

/-- A read on an open socket, call by call. -/
structure OpenTurn (s : PeerState) (now : Int32) (bytes : List UInt8) (input : PeerInput)
    (next : PeerState) : Prop where
  data : DataTurn s bytes input next
  tracRecv : next.peer.tracRecv = true
  nextTimePrintLog : next.peer.nextTimePrintLog =
    if deadline s.peer now ≤ now.toUInt32 then (now + klogInterval).toUInt32
    else deadline s.peer now
  effects : next.effects = s.effects ++ .read bytes ::
    (recordCalls s.peer next.peer now ++ signalCalls s.peer next.peer input.write)

private theorem onData_open (isOpen : 0 < s.peer.sockfd) (tracing : s.peer.tracRecv = true)
    (ran : s.onData now bytes input = some next) : OpenTurn s now bytes input next := by
  obtain ⟨⟨clientId, totalByte, headed⟩, opening⟩ :=
    readHeader_calls (s := s.emit (.read bytes)) tracing now bytes input
  have data := onData_turn ran
  unfold PeerState.onData at ran
  dsimp only at ran
  generalize (s.emit (.read bytes)).readHeader now bytes input = noted at ran headed opening
  have counted : (noted.countBytes bytes).peer = { s.peer with
      clientId, totalByte, nextTimePrintLog := deadline s.peer now, firstPacket := false
      recvByte := s.peer.recvByte + UInt32.ofNat bytes.length } := by
    simp only [PeerState.countBytes, headed, PeerState.emit]
  have kept : (noted.countBytes bytes).effects = noted.effects := rfl
  generalize noted.countBytes bytes = mid at ran counted kept
  obtain ⟨timed, interval⟩ := reportInterval_calls (s := mid) (by rw [counted]; exact tracing) now
  obtain ⟨peer, _⟩ := checkDone_spec ran
  have final := checkDone_calls (by rw [timed, counted]; exact isOpen)
    (by rw [timed, counted]; exact tracing) ran
  rw [timed, counted] at peer final
  rw [counted] at interval
  refine ⟨data, by rw [peer]; exact tracing, by rw [peer], ?_⟩
  rw [final, interval, kept, opening, headed]
  simp only [recordCalls, signalCalls, peer, List.append_assoc, PeerState.emit]
  rfl

/-! ## Runs -/

/-- What can happen to a peer: a turn of its read loop, or a call elsewhere in the process that
fails. -/
inductive PeerEvent where
  | turn (now : Int32) (input : PeerInput)
  | failedCall (errno : Errno)

/-- The loop calls a peer back for its open socket only. -/
def peerStep (s : PeerState) : PeerEvent → Option PeerState
  | .turn now input => if 0 < s.peer.sockfd then (s.turn now input).map (·.1) else none
  | .failedCall errno => some { s with errno }

/-- An open peer reports to its server. -/
def Tracing (s : PeerState) : Prop := 0 < s.peer.sockfd → s.peer.tracRecv = true

/-- Every way a turn of an open peer can go: it consumes data, has to wait, or closes. -/
theorem peerStep_turn (tracing : Tracing s) (took : peerStep s (.turn now input) = some next) :
    0 < s.peer.sockfd ∧
    ((∃ chunk, input.result = .data chunk ∧ OpenTurn s now chunk.bytes input next) ∨
      (∀ chunk, input.result ≠ .data chunk) ∧
        (next = { s with errno := input.result.errnoAfter s.errno } ∨
          next.peer = { s.peer with sockfd := 0, tracRecv := false } ∧
          next.effects = s.effects ++ [.peerClose s.peer.sockfd, .close s.peer.sockfd])) := by
  rw [peerStep, Option.ite_none_right_eq_some] at took
  obtain ⟨isOpen, called⟩ := took
  obtain ⟨⟨_, again⟩, turned, rfl⟩ := Option.map_eq_some_iff.mp called
  refine ⟨isOpen, ?_⟩
  unfold PeerState.turn at turned
  split at turned
  · rename_i chunk result
    obtain ⟨reached, consumed, same⟩ := Option.map_eq_some_iff.mp turned
    cases same
    exact .inl ⟨chunk, result, onData_open isOpen (tracing isOpen) consumed⟩
  · rename_i other
    cases turned
    refine .inr ⟨other, ?_⟩
    cases waits : wouldBlock (input.result.errnoAfter s.errno) with
    | true => exact .inl ((onReadEnd_spec _).1 waits)
    | false =>
      refine .inr ?_
      dsimp only
      rw [(onReadEnd_spec _).2 waits, close_open _ (by exact isOpen)]
      exact ⟨rfl, by simp [PeerState.emit]⟩

theorem Tracing.step (tracing : Tracing s) (took : peerStep s event = some next) :
    Tracing next := by
  cases event with
  | failedCall errno =>
    cases took
    exact tracing
  | turn now input =>
    obtain ⟨isOpen, turned⟩ := peerStep_turn tracing took
    rcases turned with ⟨chunk, _, turn⟩ | ⟨_, rfl | ⟨peer, _⟩⟩
    · exact fun _ => turn.tracRecv
    · exact tracing
    · intro impossible
      rw [peer] at impossible
      exact absurd impossible (Int.lt_irrefl 0)

/-- A `NotifiRead` of an open peer is a run of such turns, all at the one time it looked at the
clock, and takes as many of the answers as the loop comes to ask for. -/
theorem notifiRead_run (isOpen : 0 < s.peer.sockfd)
    (ran : PeerState.notifiRead now s inputs = some next) :
    ∃ taken, taken <+: inputs ∧ run peerStep s (taken.map (.turn now)) = some next := by
  induction inputs generalizing s with
  | nil => exact ⟨[], List.nil_prefix, ran⟩
  | cons input rest ih =>
    rw [PeerState.notifiRead] at ran
    have stepped : ∀ mid again, s.turn now input = some (mid, again) →
        peerStep s (.turn now input) = some mid := by
      intro mid again turned
      rw [peerStep, if_pos isOpen, turned]
      rfl
    split at ran
    · cases ran
    · rename_i mid turned
      cases ran
      refine ⟨[input], List.cons_prefix_cons.mpr ⟨rfl, List.nil_prefix⟩, ?_⟩
      exact run_cons.mpr ⟨next, stepped next false turned, rfl⟩
    · rename_i mid turned
      obtain ⟨chunk, _, _, turn⟩ | ⟨_, impossible, _⟩ := turn_spec turned
      · obtain ⟨taken, part, onward⟩ := ih (turn.sockfd ▸ isOpen) ran
        refine ⟨input :: taken, List.cons_prefix_cons.mpr ⟨rfl, part⟩, ?_⟩
        exact run_cons.mpr ⟨mid, stepped mid true turned, onward⟩
      · cases impossible

end Calls

/-! ## The peers of a server -/

/-- The peer came to this state by turns that are all `good`. -/
def Lived (good : PeerState → PeerEvent → Prop) (s : PeerState) : Prop :=
  ∃ fd errno events, run peerStep (freshPeer fd errno) events = some s ∧
    Along peerStep good (freshPeer fd errno) events

/-- A step of a server all of whose peers take `good` turns only. -/
def GoodTurn (good : PeerState → PeerEvent → Prop) (s : TcpServer) : ServerEvent → Prop
  | .readable fd now input => ∀ p object, (s.evb.events fd).clientData = some (.peer p) →
      s.objects[p]? = some object → good (s.stateOf object) (.turn now input)
  | _ => True

section Lives

variable {good : PeerState → PeerEvent → Prop}

private theorem Lived.fresh (fd : Int) (errno : Errno) : Lived good (freshPeer fd errno) :=
  ⟨fd, errno, [], rfl, along_nil _ _⟩

private theorem Lived.step (lived : Lived good s) (fine : good s event)
    (took : peerStep s event = some next) : Lived good next := by
  obtain ⟨fd, errno, events, ran, along⟩ := lived
  exact ⟨fd, errno, events ++ [event], run_concat.mpr ⟨s, ran, took⟩, along_concat along ran fine⟩

/-- Every peer with an open socket has lived so. -/
def Lives (good : PeerState → PeerEvent → Prop) (s : TcpServer) : Prop :=
  ∀ object ∈ s.objects, 0 < object.peer.sockfd →
    ∀ errno, Lived good ⟨object.peer, errno, object.effects⟩

/-- Peers that were not called keep their life, whatever becomes of `errno`. -/
theorem Lived.errno (harmless : ∀ s errno, good s (.failedCall errno)) (lived : Lived good s)
    (errno : Errno) : Lived good { s with errno } :=
  lived.step (harmless s errno) rfl

private theorem Lives.append (held : Lives good s) (objects : next.objects = s.objects ++ [added])
    (joins : 0 < added.peer.sockfd → ∀ errno, Lived good ⟨added.peer, errno, added.effects⟩) :
    Lives good next := by
  intro object member isOpen
  rw [objects] at member
  rcases List.mem_append.mp member with old | new
  · exact held object old isOpen
  · rw [List.mem_singleton.mp new] at isOpen ⊢
    exact joins isOpen

/-- A closed peer that is deleted stays closed. -/
theorem Lives.retire (held : Lives good s) (idle : object.peer.sockfd ≤ 0) :
    Lives good { s with objects := s.objects.set p (retired object) } := by
  intro other member isOpen
  rcases List.mem_or_eq_of_mem_set member with old | rfl
  · exact held other old isOpen
  · exact absurd (show 0 < object.peer.sockfd from isOpen) (by omega)

private theorem Lives.step (harmless : ∀ s errno, good s (.failedCall errno))
    (inv : ServerInv listenfd s) (held : Lives good s) (fine : GoodTurn good s event)
    (took : s.step event = some next) : Lives good next := by
  cases event with
  | accept answer =>
    cases inv.moves took with
    | acceptNew => exact held.append rfl fun _ errno => Lived.fresh _ errno
    | acceptStale =>
      exact held.append rfl fun impossible => absurd impossible (Int.lt_irrefl 0)
    | acceptFailed | acceptBeyond => exact held
  | readable fd now input =>
    obtain ⟨p, object, after, again, fires, data, found, turned, rfl⟩ := readable_turn took
    obtain ⟨positive, _, _, registered⟩ := inv.fires_registered fires data
    have isOpen : 0 < (s.stateOf object).peer.sockfd := by
      rw [stateOf, registered.sockfd found]
      exact positive
    have stepped : peerStep (s.stateOf object) (.turn now input) = some after := by
      rw [peerStep, if_pos isOpen, turned]
      rfl
    intro other member otherOpen
    rw [commit_objects] at member
    rcases List.mem_or_eq_of_mem_set member with old | rfl
    · exact held other old otherOpen
    · have before := held object (List.mem_of_getElem? found) isOpen s.errno
      exact (before.step (fine p object data found) stepped).errno harmless
  | timer id =>
    cases inv.moves took
    exact (inv.deletes held (fun _ _ _ mid _ idle => mid.retire idle)
      s.waitForDelele fun _ member => member).2
  | failedCall errno =>
    cases took
    exact held

/-- What is so of every peer that lives well is so of every connection a server serves well. -/
theorem served_lives (harmless : ∀ s errno, good s (.failedCall errno)) (listenfd epfd : Int)
    (counter : Option PeerCouner)
    (along : Along TcpServer.step (GoodTurn good) (createSocket listenfd epfd counter) events) :
    Always TcpServer.step (Lives good) (createSocket listenfd epfd counter) events := by
  have always := always_of_along (P := fun s => ServerInv listenfd s ∧ Lives good s)
    ⟨createSocket_inv listenfd epfd counter, by simp [Lives, createSocket]⟩
    (fun mid event next held fine took =>
      ⟨held.1.step took, held.2.step harmless held.1 fine took⟩) along
  exact fun before part mid reached => (always before part mid reached).2

end Lives

end TcpCongestion.PeerRuns
