import TcpCongestion.DoneSignal
import TcpCongestion.Words

/-! The records of one connection as samples of its byte count. The opening, the interval and
the completion share one deadline, so what is kept from read to read is how that deadline lies
to the last record: never more than an interval after it, and exactly one interval as long as
bytes are missing. -/
namespace TcpCongestion.ReceiveTrace
open Posix Runs Words TcpPeerProofs EndToEnd ReceiverChunking PeerRuns DoneSignal

structure Record where
  id : UInt32
  ts : Nat
  len : Nat
  deriving DecidableEq

/-- The records passed to `OnTraceData`. -/
def records (effects : List PeerEffect) : List Record :=
  effects.filterMap fun
    | .onTraceData id ts len => some ⟨id, ts.toNat, len.toNat⟩
    | _ => none

/-- The wall clock at each turn. -/
def clocks (events : List PeerEvent) : List Int :=
  events.filterMap fun
    | .turn now _ => some now.toInt
    | .failedCall _ => none

/-- What the reads deliver. -/
def delivered (events : List PeerEvent) : List UInt8 :=
  events.flatMap fun
    | .turn _ ⟨.data chunk, _, _, _⟩ => chunk.bytes
    | _ => []

/-! ## Samples -/

/-- Samples of a count that starts at 0 and is to reach `total`. -/
structure Sampling (total : Nat) (samples : List Record) : Prop where
  first : ∀ record, samples.head? = some record → record.len = 0
  ordered : samples.Pairwise fun a b => a.ts ≤ b.ts ∧ a.len ≤ b.len
  apart : samples.IsChain fun a b => b.len < total → a.ts + 5000 ≤ b.ts

private theorem Sampling.push (held : Sampling total samples)
    (last : samples.getLast? = some record) (later : record.ts ≤ new.ts ∧ record.len ≤ new.len)
    (spaced : new.len < total → record.ts + 5000 ≤ new.ts) : Sampling total (samples ++ [new]) := by
  refine ⟨?_, ?_, ?_⟩
  · intro first head
    obtain ⟨init, rfl⟩ := List.getLast?_eq_some_iff.mp last
    apply held.first
    cases init <;> simpa using head
  · refine List.pairwise_append.mpr ⟨held.ordered, List.pairwise_singleton _ _, ?_⟩
    intro a member b same
    rw [List.mem_singleton.mp same]
    obtain ⟨init, rfl⟩ := List.getLast?_eq_some_iff.mp last
    rcases List.mem_append.mp member with old | atEnd
    · have below := (List.pairwise_append.mp held.ordered).2.2 a old record (by simp)
      exact ⟨Nat.le_trans below.1 later.1, Nat.le_trans below.2 later.2⟩
    · rw [List.mem_singleton.mp atEnd]
      exact later
  · refine List.isChain_append.mpr ⟨held.apart, List.isChain_singleton _, ?_⟩
    intro a atEnd b head
    cases last.symm.trans atEnd
    cases head
    exact spaced

/-- The samples together with the deadline for the next one, at time `now` with `count` bytes
received. -/
structure Kept (total count now next : Nat) (samples : List Record) : Prop where
  sampling : Sampling total samples
  last : ∃ record, samples.getLast? = some record ∧ record.ts ≤ now ∧ record.len ≤ count ∧
    next ≤ record.ts + 5000 ∧ (count < total → next = record.ts + 5000)

private theorem Kept.opening (id : UInt32) (total count now : Nat) :
    Kept total count now (now + 5000) [⟨id, now, 0⟩] := by
  refine ⟨⟨?_, List.pairwise_singleton _ _, List.isChain_singleton _⟩,
    ⟨id, now, 0⟩, rfl, Nat.le_refl _, Nat.zero_le _, Nat.le_refl _, fun _ => rfl⟩
  intro record head
  cases head
  rfl

/-- Time passes and bytes arrive. -/
theorem Kept.mono (held : Kept total count now next samples) (further : count ≤ count')
    (later : now ≤ now') : Kept total count' now' next samples := by
  obtain ⟨record, last, ts, len, near, exact'⟩ := held.last
  exact ⟨held.sampling, record, last, Nat.le_trans ts later, Nat.le_trans len further, near,
    fun missing => exact' (by omega)⟩

/-- The interval rule: a sample when the deadline has come, and then a new deadline. -/
theorem Kept.interval (held : Kept total count now next samples) (id : UInt32) :
    Kept total count now (if next ≤ now then now + 5000 else next)
      (samples ++ if next ≤ now then [⟨id, now, count⟩] else []) := by
  split
  · rename_i due
    obtain ⟨record, last, ts, len, near, exact'⟩ := held.last
    refine ⟨held.sampling.push last ⟨ts, len⟩ ?_, ⟨id, now, count⟩, by simp, Nat.le_refl _,
      Nat.le_refl _, Nat.le_refl _, fun _ => rfl⟩
    intro missing
    have same := exact' missing
    dsimp only
    omega
  · rw [List.append_nil]
    exact held

/-- The completion rule: a sample whenever nothing is missing, with the deadline as it was. -/
theorem Kept.completion (held : Kept total count now next samples) (id : UInt32) :
    Kept total count now next (samples ++ if total ≤ count then [⟨id, now, count⟩] else []) := by
  split
  · rename_i complete
    obtain ⟨record, last, ts, len, near, _⟩ := held.last
    refine ⟨held.sampling.push last ⟨ts, len⟩ ?_, ⟨id, now, count⟩, by simp, Nat.le_refl _,
      Nat.le_refl _, Nat.le_trans near (by dsimp only; omega), ?_⟩
    · intro missing
      exact absurd complete (Nat.not_le.mpr missing)
    · intro missing
      exact absurd complete (Nat.not_le.mpr missing)
  · rw [List.append_nil]
    exact held

/-! ## The records of one read -/

/-- The next deadline does not overflow. -/
theorem deadline_toNat (now : Int32) (nonneg : 0 ≤ now.toInt) (small : now.toInt + 5000 < 2 ^ 31) :
    (now + klogInterval).toUInt32.toNat = now.toUInt32.toNat + 5000 := by
  have clock := toUInt32_toNat now nonneg
  have sum : (now + klogInterval).toInt = now.toInt + 5000 := by
    have interval : klogInterval.toInt = 5000 := by decide
    rw [Int32.toInt_add, interval, Int.bmod_eq_of_le (by omega) (by omega)]
  have moved := toUInt32_toNat (now + klogInterval) (by omega)
  omega

private theorem records_append (before after : List PeerEffect) :
    records (before ++ after) = records before ++ records after :=
  List.filterMap_append

private theorem signalCalls_unrecorded (before after : TcpPeer) (result : WriteResult) :
    records (signalCalls before after result) = [] := by
  unfold signalCalls doneWritten
  split
  · split <;> rfl
  · rfl

/-- One sample of the peer's count. -/
def sample (peer : TcpPeer) (now : Int32) (count : UInt32) : Record :=
  ⟨peer.clientId, now.toUInt32.toNat, count.toNat⟩

variable {s next : PeerState}

private theorem data_records (turn : OpenTurn s now bytes input next) :
    records next.effects = records s.effects ++
      (if s.peer.firstPacket then [sample next.peer now s.peer.recvByte] else []) ++
      (if (deadline s.peer now).toNat ≤ now.toUInt32.toNat then
        [sample next.peer now next.peer.recvByte] else []) ++
      if next.peer.totalByte.toNat ≤ next.peer.recvByte.toNat then
        [sample next.peer now next.peer.recvByte] else [] := by
  have opening (c : Prop) [Decidable c] (count : UInt32) :
      records (if c then [.onTraceData next.peer.clientId now.toUInt32 count] else []) =
        if c then [sample next.peer now count] else [] := by
    split <;> rfl
  rw [turn.effects, ← List.singleton_append, records_append, records_append, records_append,
    signalCalls_unrecorded, recordCalls, records_append, records_append, opening, opening, opening]
  simp only [UInt32.le_iff_toNat_le, List.append_nil, List.append_assoc]
  rfl

/-! ## Runs -/

/-- What the records of a peer look like at any time. -/
structure Faithful (s : PeerState) : Prop where
  count : s.peer.recvByte.toNat = (received s.effects).length
  ids : ∀ record ∈ records s.effects, record.id = s.peer.clientId
  sampling : Sampling s.peer.totalByte.toNat (records s.effects)

/-- A read that comes an interval or more after the last record, or finds nothing missing, adds
a record of the count with its own bytes. -/
def Reports (s : PeerState) : PeerEvent → Prop
  | .turn now input => ∀ chunk next, input.result = .data chunk →
      peerStep s (.turn now input) = some next →
      (∃ record, (records s.effects).getLast? = some record ∧
          (record.ts : Int) + 5000 ≤ now.toInt) ∨
        next.peer.totalByte ≤ next.peer.recvByte →
      ∃ new, records next.effects = records s.effects ++ new ∧
        ⟨next.peer.clientId, now.toUInt32.toNat, (received next.effects).length⟩ ∈ new
  | .failedCall _ => True

/-- What is known of a peer that was last called at `since`. -/
structure Traced (since : Nat) (s : PeerState) : Prop where
  tracing : Tracing s
  count : s.peer.recvByte.toNat = (received s.effects).length
  ids : ∀ record ∈ records s.effects, record.id = s.peer.clientId
  fresh : s.peer.firstPacket = true → records s.effects = [] ∧ s.peer.recvByte.toNat = 0
  kept : s.peer.firstPacket = false → Kept s.peer.totalByte.toNat s.peer.recvByte.toNat since
    s.peer.nextTimePrintLog.toNat (records s.effects)

private theorem freshPeer_traced (fd : Int) (errno : Errno) : Traced 0 (freshPeer fd errno) :=
  ⟨fun _ => rfl, rfl, by simp [freshPeer, records], fun _ => ⟨rfl, rfl⟩, by simp [freshPeer]⟩

private theorem Traced.faithful (held : Traced since s) : Faithful s := by
  refine ⟨held.count, held.ids, ?_⟩
  cases first : s.peer.firstPacket with
  | true =>
    rw [(held.fresh first).1]
    exact ⟨by simp, List.Pairwise.nil, List.isChain_nil⟩
  | false => exact (held.kept first).sampling

/-- The count after a read that does not make it wrap. -/
theorem Traced.counted (held : Traced since s) (turn : OpenTurn s now bytes input next)
    (small : (received s.effects).length + bytes.length < 2 ^ 32) :
    next.peer.recvByte.toNat = s.peer.recvByte.toNat + bytes.length ∧
      next.peer.recvByte.toNat = (received next.effects).length := by
  have stream := (dataTurn_streams turn.data).1
  have count := held.count
  have sum : next.peer.recvByte.toNat = s.peer.recvByte.toNat + bytes.length := by
    rw [turn.data.recvByte, UInt32.toNat_add, UInt32.toNat_ofNat']
    omega
  refine ⟨sum, ?_⟩
  rw [sum, stream, List.length_append, count]

/-- The samples after the opening rule, with the deadline it leaves. -/
theorem Traced.opened (held : Traced since s) (turn : OpenTurn s now bytes input next)
    (nonneg : 0 ≤ now.toInt) (range : now.toInt + 5000 < 2 ^ 31) (later : (since : Int) ≤ now.toInt)
    (further : s.peer.recvByte.toNat ≤ next.peer.recvByte.toNat) :
    Kept next.peer.totalByte.toNat next.peer.recvByte.toNat now.toUInt32.toNat
      (deadline s.peer now).toNat
      (records s.effects ++
        if s.peer.firstPacket then [sample next.peer now s.peer.recvByte] else []) := by
  have clock := toUInt32_toNat now nonneg
  have total := turn.data.totalByte
  cases first : s.peer.firstPacket with
  | true =>
    obtain ⟨none, zero⟩ := held.fresh first
    rw [none, if_pos rfl, List.nil_append, deadline, if_pos first, deadline_toNat now nonneg range,
      sample, zero]
    exact Kept.opening _ _ _ _
  | false =>
    rw [first] at total
    rw [if_neg (by simp), List.append_nil, deadline, if_neg (by simp [first]), total]
    exact (held.kept first).mono further (by omega)

private theorem Traced.data (held : Traced since s) (turn : OpenTurn s now bytes input next)
    (nonneg : 0 ≤ now.toInt) (range : now.toInt + 5000 < 2 ^ 31) (later : (since : Int) ≤ now.toInt)
    (small : (received s.effects).length + bytes.length < 2 ^ 32) :
    Traced now.toUInt32.toNat next := by
  obtain ⟨sum, count⟩ := held.counted turn small
  refine ⟨fun _ => turn.tracRecv, count, ?_, ?_, fun _ => ?_⟩
  · intro record member
    rw [data_records turn] at member
    have identified : ∀ (c : Prop) [Decidable c] (count : UInt32),
        record ∈ (if c then [sample next.peer now count] else []) →
          record.id = next.peer.clientId := by
      intro c _ count new
      split at new
      · rw [List.mem_singleton.mp new]
        rfl
      · cases new
    simp only [List.mem_append] at member
    rcases member with ((old | new) | new) | new
    · cases first : s.peer.firstPacket with
      | true =>
        rw [(held.fresh first).1] at old
        cases old
      | false =>
        rw [held.ids record old, turn.data.clientId, first]
        rfl
    all_goals exact identified _ _ new
  · simp [turn.data.firstPacket]
  · rw [data_records turn, turn.nextTimePrintLog]
    have opened := held.opened turn nonneg range later (by omega)
    have sampled := (opened.interval next.peer.clientId).completion next.peer.clientId
    rw [← deadline_toNat now nonneg range] at sampled
    simp only [UInt32.le_iff_toNat_le, apply_ite UInt32.toNat]
    exact sampled

private theorem Traced.reports (held : Traced since s) (turn : OpenTurn s now bytes input next)
    (nonneg : 0 ≤ now.toInt) (small : (received s.effects).length + bytes.length < 2 ^ 32)
    (due : (∃ record, (records s.effects).getLast? = some record ∧
        (record.ts : Int) + 5000 ≤ now.toInt) ∨ next.peer.totalByte ≤ next.peer.recvByte) :
    ∃ new, records next.effects = records s.effects ++ new ∧
      ⟨next.peer.clientId, now.toUInt32.toNat, (received next.effects).length⟩ ∈ new := by
  have clock := toUInt32_toNat now nonneg
  obtain ⟨_, count⟩ := held.counted turn small
  rw [data_records turn, ← count]
  simp only [List.append_assoc]
  refine ⟨_, rfl, ?_⟩
  simp only [List.mem_append]
  rcases due with ⟨record, last, late⟩ | complete
  · have first : s.peer.firstPacket = false := by
      by_contra opening
      rw [(held.fresh (by simpa using opening)).1] at last
      cases last
    obtain ⟨other, again, _, _, near, _⟩ := (held.kept first).last
    cases last.symm.trans again
    have due : (deadline s.peer now).toNat ≤ now.toUInt32.toNat := by
      rw [deadline, if_neg (by simp [first])]
      omega
    refine .inr (.inl ?_)
    rw [if_pos due]
    exact List.mem_singleton.mpr rfl
  · refine .inr (.inr ?_)
    rw [if_pos (UInt32.le_iff_toNat_le.mp complete)]
    exact List.mem_singleton.mpr rfl

/-- What one event has to respect: the clock and the size of the stream. -/
structure InTime (since : Nat) (s : PeerState) (event : PeerEvent) : Prop where
  clock : ∀ now ∈ clocks [event], (since : Int) ≤ now ∧ now + 5000 < 2 ^ 31
  small : (received s.effects).length + (delivered [event]).length < 2 ^ 32

/-- The time of an event, or of the one before it if it has none. -/
def time (since : Nat) : PeerEvent → Nat
  | .turn now _ => now.toUInt32.toNat
  | .failedCall _ => since

/-- A turn without data, whether it waits or closes the peer. -/
theorem Traced.idle (held : Traced since s) (tracing : Tracing next) (later : since ≤ now)
    (unchanged : (∃ errno, next = { s with errno }) ∨
      next.peer = { s.peer with sockfd := 0, tracRecv := false } ∧
        next.effects = s.effects ++ [.peerClose s.peer.sockfd, .close s.peer.sockfd]) :
    Traced now next ∧ received next.effects = received s.effects := by
  rcases unchanged with ⟨errno, rfl⟩ | ⟨peer, effects⟩
  · exact ⟨⟨tracing, held.count, held.ids, held.fresh,
      fun first => (held.kept first).mono (Nat.le_refl _) later⟩, rfl⟩
  · have same : records next.effects = records s.effects := by
      rw [effects, records_append]
      simp [records]
    have stream : received next.effects = received s.effects := by
      rw [effects, received_append]
      simp [received]
    refine ⟨⟨tracing, ?_, ?_, ?_, ?_⟩, stream⟩
    · rw [peer, stream]; exact held.count
    · rw [peer, same]; exact held.ids
    · rw [peer, same]; exact held.fresh
    · rw [peer, same]
      exact fun first => (held.kept first).mono (Nat.le_refl _) later

private theorem delivered_data {input : PeerInput} (result : input.result = .data chunk) :
    delivered [.turn now input] = chunk.bytes := by
  obtain ⟨_, _, _, _⟩ := input
  cases result
  simp [delivered]

private theorem delivered_nothing {input : PeerInput}
    (other : ∀ chunk, input.result ≠ .data chunk) : delivered [.turn now input] = [] := by
  obtain ⟨answer, _, _, _⟩ := input
  cases answer with
  | data chunk => exact absurd rfl (other chunk)
  | eof => rfl
  | error errno => rfl

private theorem Traced.step (held : Traced since s) (inTime : InTime since s event)
    (took : peerStep s event = some next) :
    Traced (time since event) next ∧
      (received next.effects).length = (received s.effects).length + (delivered [event]).length ∧
      Reports s event := by
  have tracing := held.tracing.step took
  cases event with
  | failedCall errno =>
    cases took
    obtain ⟨idle, _⟩ := held.idle tracing (Nat.le_refl since) (.inl ⟨errno, rfl⟩)
    exact ⟨idle, rfl, trivial⟩
  | turn now input =>
    obtain ⟨later, range⟩ := inTime.clock now.toInt (by simp [clocks])
    have nonneg : 0 ≤ now.toInt := by omega
    have clock := toUInt32_toNat now nonneg
    have small := inTime.small
    obtain ⟨isOpen, turned⟩ := peerStep_turn held.tracing took
    rcases turned with ⟨chunk, result, turn⟩ | ⟨other, unchanged⟩
    · rw [delivered_data result] at small ⊢
      refine ⟨held.data turn nonneg range later small, ?_, ?_⟩
      · rw [(dataTurn_streams turn.data).1, List.length_append]
      · intro other after again reached due
        cases took.symm.trans reached
        exact held.reports turn nonneg small due
    · have onward : since ≤ now.toUInt32.toNat := by omega
      obtain ⟨idle, stream⟩ := held.idle tracing onward
        (unchanged.imp (fun same => ⟨_, same⟩) id)
      refine ⟨idle, by rw [stream, delivered_nothing other]; rfl, ?_⟩
      intro chunk after result
      exact absurd result (other chunk)

private theorem clocks_cons (event : PeerEvent) (rest : List PeerEvent) :
    clocks (event :: rest) = clocks [event] ++ clocks rest := by
  cases event <;> rfl

private theorem delivered_cons (event : PeerEvent) (rest : List PeerEvent) :
    (delivered (event :: rest)).length = (delivered [event]).length + (delivered rest).length := by
  rw [← List.length_append, delivered, delivered, delivered, ← List.flatMap_append]
  rfl

private theorem clocks_after {since : Nat} (nonneg : ∀ now ∈ clocks [event], 0 ≤ now)
    (clock : ((since : Int) :: clocks (event :: rest)).Pairwise (· ≤ ·)) :
    ((time since event : Int) :: clocks rest).Pairwise (· ≤ ·) := by
  cases event with
  | failedCall errno => exact clock
  | turn now input =>
    rw [time, toUInt32_toNat now (nonneg now.toInt (by simp [clocks]))]
    exact (List.pairwise_cons.mp clock).2

private theorem Traced.run (held : Traced since s)
    (clock : ((since : Int) :: clocks events).Pairwise (· ≤ ·))
    (range : ∀ now ∈ clocks events, now + 5000 < 2 ^ 31)
    (small : (received s.effects).length + (delivered events).length < 2 ^ 32) :
    Always peerStep Faithful s events ∧ Along peerStep Reports s events := by
  induction events generalizing s since with
  | nil => exact ⟨always_nil.mpr held.faithful, along_nil _ _⟩
  | cons event rest ih =>
    have ordered := (List.pairwise_cons.mp clock).1
    rw [clocks_cons] at ordered range
    rw [delivered_cons] at small
    have inTime : InTime since s event := by
      refine ⟨fun now member => ⟨ordered now ?_, range now ?_⟩, by omega⟩
      · exact List.mem_append_left _ member
      · exact List.mem_append_left _ member
    have nonneg : ∀ now ∈ clocks [event], 0 ≤ now := by
      intro now member
      have later := (inTime.clock now member).1
      omega
    have onward : ∀ next, peerStep s event = some next →
        Always peerStep Faithful next rest ∧ Along peerStep Reports next rest := by
      intro next took
      obtain ⟨kept, stream, _⟩ := held.step inTime took
      exact ih kept (clocks_after nonneg clock)
        (fun now member => range now (List.mem_append_right _ member)) (by omega)
    refine ⟨always_cons.mpr ⟨held.faithful, fun next took => (onward next took).1⟩,
      along_cons.mpr ⟨?_, fun next took => (onward next took).2⟩⟩
    cases took : peerStep s event with
    | some next => exact (held.step inTime took).2.2
    | none =>
      -- an event that cannot happen has nothing to report
      cases event with
      | failedCall errno => trivial
      | turn now input =>
        intro chunk next _ reached
        exact absurd (took.symm.trans reached) (by simp)

/-- The trace of a connection samples its byte count faithfully, for clocks that do not run back
and streams below 2^32 bytes, however the stream is cut into reads. -/
theorem receive_trace_faithful (fd : Int) (errno : Errno) (events : List PeerEvent)
    (clock : (clocks events).Pairwise (· ≤ ·))
    (range : ∀ now ∈ clocks events, 0 ≤ now ∧ now + 5000 < 2 ^ 31)
    (small : (delivered events).length < 2 ^ 32) :
    Always peerStep Faithful (freshPeer fd errno) events ∧
      Along peerStep Reports (freshPeer fd errno) events := by
  refine (freshPeer_traced fd errno).run (List.pairwise_cons.mpr ⟨?_, clock⟩)
    (fun now member => (range now member).2) (by simpa [freshPeer, received] using small)
  exact fun now member => (range now member).1

/-- Twelve bytes announced: the header at 0, two bytes more at 6000, the rest at 6001. -/
def threeReads : List PeerEvent :=
  [.turn 0 ⟨.data (.next 0 [0, 0, 1, 0, 0, 0, 12]), 0, 0, .accepted 14⟩,
   .turn 6000 ⟨.data (.next 7 [7]), 0, 0, .accepted 14⟩,
   .turn 6001 ⟨.data (.next 7 [7]), 0, 0, .accepted 14⟩]

theorem three_reads_traced :
    Always peerStep Faithful (freshPeer 5 0) threeReads ∧
      Along peerStep Reports (freshPeer 5 0) threeReads ∧
      (run peerStep (freshPeer 5 0) threeReads).map (fun s => records s.effects) =
        some [⟨1, 0, 0⟩, ⟨1, 6000, 10⟩, ⟨1, 6001, 12⟩] := by
  have traced := receive_trace_faithful 5 0 threeReads (by decide) (by decide) (by decide)
  exact ⟨traced.1, traced.2, by decide +kernel⟩

end TcpCongestion.ReceiveTrace
