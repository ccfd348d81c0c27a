import TcpCongestion.ByteCodecProofs
import TcpCongestion.TcpPeer

/-! What one turn of the receiver's read loop can do. Every result about
connections, chunkings and counters below is derived from `DataTurn`, so the
branches of `NotifiRead` are split here and nowhere else. -/
namespace TcpCongestion.TcpPeerProofs
open Posix LittleEndian ByteCodec ByteCodecProofs

/-- What the two `ReadUInt32` calls find in the first bytes of a connection. -/
def header (bytes : List UInt8) : Option UInt32 × Option UInt32 :=
  let reader := DataReader.create bytes (UInt32.ofNat bytes.length) .networkOrder
  (reader.readUInt32.1, reader.readUInt32.2.readUInt32.1)

/-- The calls of the completion branch: the signal, at most one accepted write
of a prefix of the message, and the report to the server. -/
def DoneCalls (effects : List PeerEffect) : Prop :=
  ∃ written, effects = .sendDoneSignal :: written ++ [.onPeerReadDoneMsg] ∧
    (written = [] ∨ ∃ bytes, bytes ≠ [] ∧ bytes <+: doneMsg ++ [0] ∧ written = [.write bytes])

/-- Nothing but trace records. -/
def Traces (effects : List PeerEffect) : Prop :=
  ∀ effect ∈ effects, ∃ id ts len, effect = .onTraceData id ts len

theorem Traces.append (first : Traces before) (second : Traces after) :
    Traces (before ++ after) := by
  intro effect member
  rcases List.mem_append.mp member with member | member
  · exact first effect member
  · exact second effect member

/-- A turn that consumed data, field by field. -/
structure DataTurn (s : PeerState) (bytes : List UInt8) (input : PeerInput) (next : PeerState) :
    Prop where
  sockfd : next.peer.sockfd = s.peer.sockfd
  firstPacket : next.peer.firstPacket = false
  clientId : next.peer.clientId =
    if s.peer.firstPacket then (header bytes).1.getD input.first else s.peer.clientId
  totalByte : next.peer.totalByte =
    if s.peer.firstPacket then (header bytes).2.getD input.second else s.peer.totalByte
  recvByte : next.peer.recvByte = s.peer.recvByte + UInt32.ofNat bytes.length
  sendReadDone : next.peer.sendReadDone =
    (s.peer.sendReadDone || decide (next.peer.totalByte ≤ next.peer.recvByte))
  effects : ∃ traces signal, next.effects = s.effects ++ .read bytes :: (traces ++ signal) ∧
    Traces traces ∧
    (if s.peer.sendReadDone = false ∧ next.peer.totalByte ≤ next.peer.recvByte
      then DoneCalls signal else signal = [])

private theorem reportRecvLength_peer (s : PeerState) (now : UInt32) :
    (s.reportRecvLength now).peer = s.peer := by
  unfold PeerState.reportRecvLength
  split <;> rfl

private theorem reportRecvLength_effects (s : PeerState) (now : UInt32) :
    ∃ traces, (s.reportRecvLength now).effects = s.effects ++ traces ∧ Traces traces := by
  unfold PeerState.reportRecvLength
  split
  · exact ⟨[_], rfl, by simp [Traces]⟩
  · exact ⟨[], by simp, by simp [Traces]⟩

private theorem writeMessage_spec (ran : PeerState.writeMessage s msg len result = some next) :
    next.peer = s.peer ∧ ∃ written, next.effects = s.effects ++ written ∧
      (written = [] ∨ ∃ bytes, 0 < result.count len ∧ bytes = msg.take (result.count len) ∧
        written = [.write bytes]) := by
  unfold PeerState.writeMessage at ran
  split at ran
  · cases ran
    exact ⟨rfl, [], by simp, .inl rfl⟩
  · split at ran
    · dsimp only at ran
      split at ran
      · cases ran
        exact ⟨rfl, [], by simp, .inl rfl⟩
      · cases ran
    · rename_i some_accepted
      cases ran
      exact ⟨rfl, _, rfl, .inr ⟨_, Nat.pos_of_ne_zero some_accepted, rfl, rfl⟩⟩

theorem doneMsg_length : doneMsg.length = 13 := by decide

/-- Of the cleared buffer the socket is offered the message and its terminating NUL. -/
theorem doneMsg_buffer_take (count : Nat) (within : count ≤ 14) :
    (doneMsg ++ List.replicate (kBufferSize - doneMsg.length) 0).take count =
      (doneMsg ++ [0]).take count := by
  have split : doneMsg ++ List.replicate (kBufferSize - doneMsg.length) (0 : UInt8) =
      (doneMsg ++ [0]) ++ List.replicate 1486 0 := by
    rw [doneMsg_length, kBufferSize, List.append_assoc]
    rfl
  rw [split, List.take_append_of_le_length (by simpa [doneMsg_length] using within)]

private theorem sendDoneSignal_spec (ran : PeerState.sendDoneSignal s result = some next) :
    next.peer = s.peer ∧ ∃ written, next.effects = s.effects ++ .sendDoneSignal :: written ∧
      (written = [] ∨ ∃ bytes, bytes ≠ [] ∧ bytes <+: doneMsg ++ [0] ∧
        written = [.write bytes]) := by
  obtain ⟨same, written, effects, shape⟩ := writeMessage_spec ran
  refine ⟨same, written, by simpa [PeerState.emit] using effects, ?_⟩
  rcases shape with none | ⟨bytes, positive, taken, written⟩
  · exact .inl none
  · have within := result.count_le (doneMsg.length + 1)
    rw [doneMsg_buffer_take _ (by simpa [doneMsg_length] using within)] at taken
    refine .inr ⟨bytes, ?_, taken ▸ List.take_prefix _ _, written⟩
    intro empty
    rw [empty] at taken
    have length := congrArg List.length taken
    rw [List.length_nil, List.length_take, List.length_append, List.length_singleton] at length
    omega

private theorem reportInterval_spec (s : PeerState) (now : Int32) :
    (∃ deadline, (s.reportInterval now).peer = { s.peer with nextTimePrintLog := deadline }) ∧
      ∃ traces, (s.reportInterval now).effects = s.effects ++ traces ∧ Traces traces := by
  unfold PeerState.reportInterval
  split
  · refine ⟨⟨_, by simp only [reportRecvLength_peer]; rfl⟩, ?_⟩
    exact reportRecvLength_effects s now.toUInt32
  · exact ⟨⟨_, rfl⟩, [], by simp, by simp [Traces]⟩

/-- The first packet is taken apart by `header`. -/
theorem readFirstPacket_eq (s : PeerState) (now : Int32) (bytes : List UInt8)
    (input : PeerInput) :
    s.readFirstPacket now bytes input =
      let announced := { s with peer := { s.peer with
        clientId := (header bytes).1.getD input.first
        totalByte := (header bytes).2.getD input.second } }
      let reported := announced.reportRecvLength now.toUInt32
      { reported with peer := { reported.peer with
        nextTimePrintLog := (now + klogInterval).toUInt32
        firstPacket := false } } := by
  rw [PeerState.readFirstPacket, header]

private theorem readHeader_spec (s : PeerState) (now : Int32) (bytes : List UInt8)
    (input : PeerInput) :
    (∃ deadline, (s.readHeader now bytes input).peer =
      { s.peer with
        clientId := if s.peer.firstPacket then (header bytes).1.getD input.first
          else s.peer.clientId
        totalByte := if s.peer.firstPacket then (header bytes).2.getD input.second
          else s.peer.totalByte
        nextTimePrintLog := deadline
        firstPacket := false }) ∧
      ∃ traces, (s.readHeader now bytes input).effects = s.effects ++ traces ∧ Traces traces := by
  unfold PeerState.readHeader
  split
  · rw [readFirstPacket_eq]
    dsimp only
    exact ⟨⟨_, by simp only [reportRecvLength_peer]; rfl⟩, reportRecvLength_effects _ _⟩
  · rename_i later
    rw [Bool.not_eq_true] at later
    exact ⟨⟨s.peer.nextTimePrintLog, by rw [← later]⟩, [], by simp, by simp [Traces]⟩

theorem checkDone_spec (ran : PeerState.checkDone s now result = some next) :
    next.peer = { s.peer with sendReadDone :=
      (s.peer.sendReadDone || decide (s.peer.totalByte ≤ s.peer.recvByte)) } ∧
    ∃ traces signal, next.effects = s.effects ++ (traces ++ signal) ∧ Traces traces ∧
      (if s.peer.sendReadDone = false ∧ s.peer.totalByte ≤ s.peer.recvByte
        then DoneCalls signal else signal = []) := by
  obtain ⟨traces, traced, onlyTraces⟩ := reportRecvLength_effects s now.toUInt32
  have same := reportRecvLength_peer s now.toUInt32
  unfold PeerState.checkDone at ran
  split at ran
  · rename_i complete
    dsimp only at ran
    split at ran
    · rename_i before
      rw [same] at before
      cases ran
      refine ⟨?_, traces, [], by simpa using traced, onlyTraces, by simp [before]⟩
      rw [same, before, Bool.true_or, ← before]
    · rename_i fresh
      rw [same, Bool.not_eq_true] at fresh
      obtain ⟨middle, sent, rfl⟩ := Option.map_eq_some_iff.mp ran
      obtain ⟨kept, written, effects, shape⟩ := sendDoneSignal_spec sent
      refine ⟨?_, traces, .sendDoneSignal :: written ++ [.onPeerReadDoneMsg], ?_, onlyTraces, ?_⟩
      · have reached : decide (s.peer.totalByte ≤ s.peer.recvByte) = true := decide_eq_true complete
        simp only [PeerState.emit, kept, same, fresh, reached, Bool.false_or]
      · simp [PeerState.emit, effects, traced]
      · rw [if_pos ⟨fresh, complete⟩]
        exact ⟨written, rfl, shape⟩
  · rename_i short
    cases ran
    refine ⟨?_, [], [], by simp, by simp [Traces], by simp [show ¬ s.peer.totalByte ≤
      s.peer.recvByte from short]⟩
    rw [decide_eq_false short, Bool.or_false]

/-- Consuming data is a `DataTurn`. -/
theorem onData_turn (ran : PeerState.onData s now bytes input = some next) :
    DataTurn s bytes input next := by
  obtain ⟨⟨firstDeadline, parsed⟩, early, earlyEffects, onlyEarly⟩ :=
    readHeader_spec (s.emit (.read bytes)) now bytes input
  obtain ⟨⟨deadline, interval⟩, middle, middleEffects, onlyMiddle⟩ :=
    reportInterval_spec (((s.emit (.read bytes)).readHeader now bytes input).countBytes bytes) now
  obtain ⟨peer, late, signal, lateEffects, onlyLate, calls⟩ := checkDone_spec ran
  simp only [interval] at peer calls
  simp only [PeerState.countBytes, PeerState.emit] at parsed peer calls
  simp only [parsed] at peer calls
  refine ⟨by rw [peer], by rw [peer], by rw [peer]; rfl, by rw [peer]; rfl, by rw [peer],
    by rw [peer], early ++ middle ++ late, signal, ?_,
    (onlyEarly.append onlyMiddle).append onlyLate, ?_⟩
  · rw [lateEffects, middleEffects]
    simp only [PeerState.countBytes]
    rw [earlyEffects]
    simp [PeerState.emit]
  · simpa only [peer] using calls

/-- The exits of the loop: nothing happens for an `errno` that says to wait, and
otherwise the peer leaves the server and closes. -/
theorem onReadEnd_spec (s : PeerState) :
    (wouldBlock s.errno = true → s.onReadEnd = s) ∧
    (wouldBlock s.errno = false → s.onReadEnd = (s.emit (.peerClose s.peer.sockfd)).close) := by
  constructor <;> intro waits <;> simp [PeerState.onReadEnd, waits]

theorem close_open (s : PeerState) (isOpen : 0 < s.peer.sockfd) :
    s.close =
      { peer := { s.peer with sockfd := 0, tracRecv := false }
        errno := s.errno
        effects := s.effects ++ [.close s.peer.sockfd] } := by
  simp [PeerState.close, PeerState.emit, isOpen]

theorem close_idle (s : PeerState) (idle : s.peer.sockfd ≤ 0) :
    s.close = { s with peer := { s.peer with tracRecv := false } } := by
  have shut : ¬ s.peer.sockfd > 0 := by omega
  simp [PeerState.close, shut]

/-- Leaving the loop touches nothing the peer knows about its stream. -/
theorem onReadEnd_peer (s : PeerState) :
    ∃ sockfd tracRecv, s.onReadEnd.peer = { s.peer with sockfd, tracRecv } := by
  unfold PeerState.onReadEnd
  split
  · exact ⟨_, _, rfl⟩
  · unfold PeerState.close
    dsimp only
    split <;> exact ⟨_, _, rfl⟩

/-- Every way a turn can go. -/
theorem turn_spec (ran : PeerState.turn s now input = some (next, again)) :
    (∃ chunk, input.result = .data chunk ∧ again = true ∧ DataTurn s chunk.bytes input next) ∨
    ((∀ chunk, input.result ≠ .data chunk) ∧ again = false ∧
      next = { s with errno := input.result.errnoAfter s.errno }.onReadEnd) := by
  unfold PeerState.turn at ran
  split at ran
  · rename_i chunk result
    obtain ⟨reached, consumed, same⟩ := Option.map_eq_some_iff.mp ran
    cases same
    exact .inl ⟨chunk, result, rfl, onData_turn consumed⟩
  · rename_i other
    cases ran
    exact .inr ⟨other, rfl, rfl⟩

/-- An answer to `write` that no `CHECK` objects to. -/
def Harmless : WriteResult → Prop
  | .accepted count => 0 < count
  | .error errno => wouldBlock errno = true

private theorem writeMessage_runs (s : PeerState) (msg : List UInt8) (something : 0 < len)
    (harmless : Harmless result) : ∃ next, s.writeMessage msg len result = some next := by
  unfold PeerState.writeMessage
  split
  · exact ⟨_, rfl⟩
  · split
    · rename_i refused
      cases result with
      | accepted count =>
        simp only [Harmless, WriteResult.count] at harmless refused
        omega
      | error errno => exact ⟨_, if_pos harmless⟩
    · exact ⟨_, rfl⟩

private theorem checkDone_runs (s : PeerState) (now : Int32) (harmless : Harmless result) :
    ∃ next, s.checkDone now result = some next := by
  unfold PeerState.checkDone
  split
  · dsimp only
    split
    · exact ⟨_, rfl⟩
    · obtain ⟨sent, signalled⟩ := writeMessage_runs
        ((s.reportRecvLength now.toUInt32).emit .sendDoneSignal)
        (doneMsg ++ List.replicate (kBufferSize - doneMsg.length) 0)
        (Nat.succ_pos doneMsg.length) harmless
      rw [PeerState.sendDoneSignal, signalled]
      exact ⟨_, rfl⟩
  · exact ⟨_, rfl⟩

/-- With such answers the loop always goes on. -/
theorem turn_runs (s : PeerState) (now : Int32) (input : PeerInput)
    (harmless : Harmless input.write) : ∃ next again, s.turn now input = some (next, again) := by
  unfold PeerState.turn
  split
  · rename_i chunk _
    obtain ⟨next, done⟩ := checkDone_runs _ now harmless
    exact ⟨next, true, Option.map_eq_some_iff.mpr ⟨next, done, rfl⟩⟩
  · exact ⟨_, _, rfl⟩

/-! ## What the first read finds -/

private theorem length_ofNat_toNat (bytes : List UInt8) (fits : bytes.length ≤ kBufferSize) :
    (UInt32.ofNat bytes.length).toNat = bytes.length := by
  rw [UInt32.toNat_ofNat']
  apply Nat.mod_eq_of_lt
  rw [kBufferSize] at fits
  omega

/-- A first read of the whole announcement is understood. -/
theorem header_announcement (id total : UInt32) (rest : List UInt8)
    (fits : (announcement id total ++ rest).length ≤ kBufferSize) :
    header (announcement id total ++ rest) = (some id, some total) := by
  obtain ⟨first, second⟩ := read_announcement id total rest _ (length_ofNat_toNat _ fits)
  rw [header, first, second]

/-- A shorter one leaves `second` as the stack held it. -/
theorem header_short (bytes : List UInt8) (short : bytes.length < 8) : (header bytes).2 = none := by
  have cursor := Cursor.create bytes (UInt32.ofNat bytes.length) .networkOrder
    (length_ofNat_toNat bytes (by rw [kBufferSize]; omega))
  have four : uint32.size.toNat = 4 := uint32.size_toNat
  simp only [header, DataReader.readUInt32, readUInt_eq]
  by_cases first : bytes.length < 4
  · have failed := cursor.readBytes_fails uint32.size (by omega)
    have stopped : Cursor (DataReader.create bytes (UInt32.ofNat bytes.length) .networkOrder).onFailure
        bytes [] := ⟨by simp [DataReader.onFailure, DataReader.create], by
          simpa [DataReader.onFailure] using cursor.len, by
          simpa [DataReader.onFailure] using cursor.len⟩
    rw [failed, stopped.readBytes_fails uint32.size (by simp [four])]
    rfl
  · have split := List.take_append_drop 4 bytes
    rw [← split] at cursor
    obtain ⟨next, read, moved, _⟩ := cursor.readBytes uint32.size (by rw [List.length_take]; omega)
    rw [split] at read
    rw [read, moved.readBytes_fails uint32.size (by rw [List.length_drop]; omega)]
    rfl

end TcpCongestion.TcpPeerProofs
