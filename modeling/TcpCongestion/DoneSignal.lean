import TcpCongestion.PeerRuns

/-! Whether the done message gets through. `SendDoneSignal` drops what the socket does not take
and the flag is set all the same, so the message is lost in exactly the runs in which the one
write of it falls short. -/
namespace TcpCongestion.DoneSignal
open Posix Runs TcpPeerProofs TcpServer EndToEnd ReceiverChunking PeerRuns

/-- An open peer that holds its message for sent has sent all of it. -/
def NotLost (s : PeerState) : Prop :=
  0 < s.peer.sockfd → s.peer.sendReadDone = true ∨ .onPeerReadDoneMsg ∈ s.effects →
    replied s.effects = doneMessage

/-- With this read the count reaches the total, which a first read announces. -/
def Completes (peer : TcpPeer) (input : PeerInput) (bytes : List UInt8) : Prop :=
  (if peer.firstPacket then (header bytes).2.getD input.second else peer.totalByte) ≤
    peer.recvByte + UInt32.ofNat bytes.length

/-- If this turn is the one that sends the message, the socket takes its 14 bytes. -/
def TakesAll (s : PeerState) : PeerEvent → Prop
  | .turn _ input => ∀ chunk, input.result = .data chunk → s.peer.sendReadDone = false →
      Completes s.peer input chunk.bytes → input.write.count 14 = 14
  | .failedCall _ => True

/-! ## What a turn sends -/

private theorem recordCalls_traces (before after : TcpPeer) (now : Int32) :
    Traces (recordCalls before after now) := by
  unfold recordCalls
  refine Traces.append (Traces.append ?_ ?_) ?_
  all_goals
    split
    · simp [Traces]
    · simp [Traces]

private theorem doneWritten_replied (result : WriteResult) :
    replied (doneWritten result) = doneMessage.take (result.count 14) := by
  unfold doneWritten
  split
  · rename_i refused
    rw [refused]
    rfl
  · simp [replied]

private theorem signalCalls_replied (before after : TcpPeer) (result : WriteResult) :
    replied (signalCalls before after result) =
      if before.sendReadDone = false ∧ after.totalByte ≤ after.recvByte then
        doneMessage.take (result.count 14) else [] := by
  unfold signalCalls
  split
  · rw [← List.singleton_append, replied_append, replied_append, doneWritten_replied]
    simp [replied]
  · rfl

variable {s next : PeerState}

private theorem data_replied (turn : OpenTurn s now bytes input next) :
    replied next.effects = replied s.effects ++
      if s.peer.sendReadDone = false ∧ next.peer.sendReadDone = true then
        doneMessage.take (input.write.count 14) else [] := by
  have silent := (traces_silent (recordCalls_traces s.peer next.peer now)).2
  rw [turn.effects, replied_append, ← List.singleton_append, replied_append, replied_append, silent,
    signalCalls_replied, turn.data.sendReadDone]
  have sent : (s.peer.sendReadDone = false ∧ next.peer.totalByte ≤ next.peer.recvByte) ↔
      s.peer.sendReadDone = false ∧
        (s.peer.sendReadDone || decide (next.peer.totalByte ≤ next.peer.recvByte)) = true := by
    cases s.peer.sendReadDone <;> simp
  simp only [sent]
  simp [replied]

private theorem data_reported (turn : OpenTurn s now bytes input next) :
    .onPeerReadDoneMsg ∈ next.effects ↔ .onPeerReadDoneMsg ∈ s.effects ∨
      (s.peer.sendReadDone = false ∧ next.peer.sendReadDone = true) := by
  have noRecord : .onPeerReadDoneMsg ∉ recordCalls s.peer next.peer now := by
    intro member
    obtain ⟨_, _, _, same⟩ := recordCalls_traces s.peer next.peer now _ member
    cases same
  have signal : .onPeerReadDoneMsg ∈ signalCalls s.peer next.peer input.write ↔
      s.peer.sendReadDone = false ∧ next.peer.totalByte ≤ next.peer.recvByte := by
    unfold signalCalls
    split <;> simp [*]
  rw [turn.effects, List.mem_append, List.mem_cons, List.mem_append, signal, turn.data.sendReadDone]
  cases s.peer.sendReadDone <;> simp [noRecord]

/-! ## Runs -/

/-- Before its flag is set a peer has sent nothing, and afterwards the whole message. -/
structure Signalled (s : PeerState) : Prop where
  tracing : Tracing s
  reported : .onPeerReadDoneMsg ∈ s.effects ↔ s.peer.sendReadDone = true
  replied : replied s.effects = if s.peer.sendReadDone then doneMessage else []

private theorem freshPeer_signalled (fd : Int) (errno : Errno) : Signalled (freshPeer fd errno) :=
  ⟨fun _ => rfl, by simp [freshPeer], rfl⟩

private theorem Signalled.notLost (held : Signalled s) : NotLost s := by
  intro _ done
  have flag : s.peer.sendReadDone = true := done.elim id held.reported.mp
  rw [held.replied, if_pos flag]

/-- The flag is never taken back. -/
theorem data_keeps_flag (turn : OpenTurn s now bytes input next) (done : s.peer.sendReadDone = true) :
    next.peer.sendReadDone = true := by
  rw [turn.data.sendReadDone, done, Bool.true_or]

/-- It is set by the read that completes the connection. -/
theorem data_sets_flag (turn : OpenTurn s now bytes input next)
    (fresh : s.peer.sendReadDone = false) :
    next.peer.sendReadDone = true ↔ Completes s.peer input bytes := by
  rw [turn.data.sendReadDone, fresh, Bool.false_or, decide_eq_true_iff, turn.data.totalByte,
    turn.data.recvByte]
  rfl

private theorem Signalled.data (held : Signalled s) (turn : OpenTurn s now bytes input next)
    (whole : s.peer.sendReadDone = false → Completes s.peer input bytes →
      input.write.count 14 = 14) : Signalled next := by
  refine ⟨fun _ => turn.tracRecv, ?_, ?_⟩
  · rw [data_reported turn, held.reported]
    cases before : s.peer.sendReadDone with
    | true => simp [data_keeps_flag turn before]
    | false => simp
  · rw [data_replied turn, held.replied]
    cases before : s.peer.sendReadDone with
    | true => simp [data_keeps_flag turn before]
    | false =>
      cases after : next.peer.sendReadDone with
      | true =>
        rw [whole before ((data_sets_flag turn before).mp after)]
        rfl
      | false => rfl

private theorem Signalled.step (held : Signalled s) (takes : TakesAll s event)
    (took : peerStep s event = some next) : Signalled next := by
  have tracing := held.tracing.step took
  cases event with
  | failedCall errno =>
    cases took
    exact ⟨tracing, held.reported, held.replied⟩
  | turn now input =>
    obtain ⟨_, turned⟩ := peerStep_turn held.tracing took
    rcases turned with ⟨chunk, data, turn⟩ | ⟨_, rfl | ⟨peer, effects⟩⟩
    · exact held.data turn (takes chunk data)
    · exact ⟨tracing, held.reported, held.replied⟩
    · refine ⟨tracing, ?_, ?_⟩
      · rw [effects, peer]
        simpa using held.reported
      · rw [effects, peer, replied_append, held.replied]
        simp [EndToEnd.replied]

/-- A write that falls short of the message loses the rest of it. -/
theorem Signalled.lost (held : Signalled s) (short : ¬ TakesAll s event)
    (took : peerStep s event = some next) : ¬ NotLost next := by
  cases event with
  | failedCall errno => exact absurd trivial short
  | turn now input =>
    simp only [TakesAll, not_forall] at short
    obtain ⟨chunk, data, before, complete, fewer⟩ := short
    obtain ⟨isOpen, ⟨other, same, turn⟩ | ⟨noData, _⟩⟩ := peerStep_turn held.tracing took
    · cases data.symm.trans same
      have after := (data_sets_flag turn before).mpr complete
      intro notLost
      have whole := notLost (by rw [turn.data.sockfd]; exact isOpen) (.inl after)
      rw [data_replied turn, if_pos ⟨before, after⟩, held.replied, before] at whole
      have length := congrArg List.length whole
      have most := input.write.count_le 14
      have fourteen : doneMessage.length = 14 := by decide
      rw [if_neg (by simp), List.nil_append, List.length_take, fourteen] at length
      omega
    · exact absurd data (noData chunk)

/-- Nothing is sent after the flag is set, so what was lost stays lost. -/
theorem replied_final (tracing : Tracing s) (done : s.peer.sendReadDone = true)
    (ran : run peerStep s events = some last) : replied last.effects = replied s.effects := by
  have held := run_invariant (P := fun mid => Tracing mid ∧ mid.peer.sendReadDone = true ∧
    replied mid.effects = replied s.effects) ⟨tracing, done, rfl⟩ ?_ ran
  · exact held.2.2
  · rintro mid event next ⟨tracing, done, same⟩ took
    refine ⟨tracing.step took, ?_⟩
    cases event with
    | failedCall errno =>
      cases took
      exact ⟨done, same⟩
    | turn now input =>
      obtain ⟨_, turned⟩ := peerStep_turn tracing took
      rcases turned with ⟨chunk, _, turn⟩ | ⟨_, rfl | ⟨peer, effects⟩⟩
      · refine ⟨data_keeps_flag turn done, ?_⟩
        rw [data_replied turn, same, if_neg (by simp [done]), List.append_nil]
      · exact ⟨done, same⟩
      · refine ⟨by rw [peer]; exact done, ?_⟩
        rw [effects, replied_append, same]
        simp [replied]

/-- The done message is never lost in exactly the runs in which the socket takes the whole of it
when it is sent. -/
theorem done_signal_not_lost_iff (fd : Int) (errno : Errno) (events : List PeerEvent)
    (last : PeerState) (ran : run peerStep (freshPeer fd errno) events = some last) :
    Always peerStep NotLost (freshPeer fd errno) events ↔
      Along peerStep TakesAll (freshPeer fd errno) events :=
  always_iff_along (freshPeer_signalled fd errno) (fun _ held => held.notLost)
    (fun _ _ _ held takes took => held.step takes took)
    (fun _ _ _ held short took => held.lost short took) ran

/-- A connection whose first read completes it, with the answer to the done message. -/
def completed (write : WriteResult) : List PeerEvent :=
  [.turn 0 ⟨.data (.next 0 [0, 0, 1, 0, 0, 0, 8]), 0, 0, write⟩]

theorem whole_signal_not_lost :
    Always peerStep NotLost (freshPeer 5 0) (completed (.accepted 14)) := by
  have evaluated : (run peerStep (freshPeer 5 0) (completed (.accepted 14))).isSome = true := by
    decide +kernel
  obtain ⟨last, ran⟩ := Option.isSome_iff_exists.mp evaluated
  refine (done_signal_not_lost_iff 5 0 _ last ran).mpr ?_
  exact along_cons.mpr ⟨fun _ _ _ _ => rfl, fun next _ => along_nil _ next⟩

/-- A full send buffer at the moment of completion: the peer holds its message for sent and
nothing of it was. -/
theorem full_buffer_loses_signal :
    ∃ s, run peerStep (freshPeer 5 0) (completed (.error EAGAIN)) = some s ∧
      0 < s.peer.sockfd ∧ s.peer.sendReadDone = true ∧ replied s.effects = [] ∧ ¬ NotLost s := by
  have evaluated : (run peerStep (freshPeer 5 0) (completed (.error EAGAIN))).any (fun s =>
      decide (0 < s.peer.sockfd ∧ s.peer.sendReadDone = true ∧ replied s.effects = [])) = true := by
    decide +kernel
  obtain ⟨s, ran, facts⟩ := Option.any_eq_true _ _ |>.mp evaluated
  obtain ⟨isOpen, done, nothing⟩ := of_decide_eq_true facts
  refine ⟨s, ran, isOpen, done, nothing, fun notLost => ?_⟩
  have whole := notLost isOpen (.inl done)
  rw [nothing] at whole
  exact absurd whole (by decide)

/-- A server whose sockets take every done message whole loses none. -/
theorem served_signal_not_lost (listenfd epfd : Int) (counter : Option PeerCouner)
    (takes : Along TcpServer.step (GoodTurn TakesAll) (createSocket listenfd epfd counter) events)
    (ran : run TcpServer.step (createSocket listenfd epfd counter) events = some server)
    (member : object ∈ server.objects) (isOpen : 0 < object.peer.sockfd)
    (done : object.peer.sendReadDone = true) : replied object.effects = doneMessage := by
  have lives := served_lives (fun _ _ => trivial) listenfd epfd counter takes events
    List.prefix_rfl server ran
  obtain ⟨fd, errno, turns, lived, along⟩ := lives object member isOpen 0
  have always := always_of_along (freshPeer_signalled fd errno)
    (fun _ _ _ held takes took => held.step takes took) along
  exact (always turns List.prefix_rfl _ lived).notLost isOpen (.inl done)

end TcpCongestion.DoneSignal
