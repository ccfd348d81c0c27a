import TcpCongestion.ByteCodecProofs
import TcpCongestion.Runs
import TcpCongestion.TcpClient
import TcpCongestion.Words

/-! The stream a client puts on its socket. Whatever the socket takes of each
write, the bytes taken so far are a prefix of the announcement followed by
zeros, and `sendByte_` is their number. -/
namespace TcpCongestion.SenderStream
open Posix LittleEndian ByteCodec ByteCodecProofs Runs Words

/-- What the socket took of one call. -/
def acceptedBy : ClientEffect → List UInt8
  | .write _ msg count => msg.take count
  | _ => []

/-- The bytes the socket has accepted. -/
def accepted (effects : List ClientEffect) : List UInt8 := effects.flatMap acceptedBy

@[simp] theorem accepted_append (before after : List ClientEffect) :
    accepted (before ++ after) = accepted before ++ accepted after :=
  List.flatMap_append

/-- All a client means to send: its id, its total, and zeros up to that total. -/
def senderStream (client : TcpClient) : List UInt8 :=
  announcement client.clientId client.totalByte ++ List.replicate (client.totalByte.toNat - 8) 0

/-- A `write` on `fd` that asks for something and for at most one line. -/
def Asks (fd : Int) (effect : ClientEffect) : Prop :=
  ∃ msg count, effect = .write fd msg count ∧ 1 ≤ msg.length ∧ msg.length ≤ maxLine

/-- The calls made are writes on `fd`, and the socket took `piece` of them. -/
def Writes (fd : Int) (before after : List ClientEffect) (piece : List UInt8) : Prop :=
  ∃ writes, after = before ++ writes ∧ accepted writes = piece ∧ ∀ effect ∈ writes, Asks fd effect

private theorem Writes.refl (fd : Int) (effects : List ClientEffect) :
    Writes fd effects effects [] :=
  ⟨[], by simp, rfl, by simp⟩

private theorem Writes.trans (first : Writes fd before middle piece)
    (second : Writes fd middle after more) : Writes fd before after (piece ++ more) := by
  obtain ⟨early, rfl, took, asked⟩ := first
  obtain ⟨late, rfl, tookMore, askedMore⟩ := second
  refine ⟨early ++ late, by simp, by rw [accepted_append, took, tookMore], ?_⟩
  intro effect member
  exact (List.mem_append.mp member).elim (asked effect) (askedMore effect)

private theorem writeMessage_spec (something : 1 ≤ msg.length) (line : msg.length ≤ maxLine)
    (ran : ClientState.writeMessage s msg result = some (next, ret)) :
    next.client = s.client ∧ ret ≤ msg.length ∧
      Writes s.client.sockfd s.effects next.effects (msg.take ret) := by
  have asks : ∀ count, Writes s.client.sockfd s.effects
      (s.effects ++ [.write s.client.sockfd msg count]) (msg.take count) := by
    intro count
    refine ⟨_, rfl, by simp [accepted, acceptedBy], ?_⟩
    simp only [List.mem_singleton, forall_eq]
    exact ⟨msg, count, rfl, something, line⟩
  unfold ClientState.writeMessage at ran
  split at ran
  · cases ran
    exact ⟨rfl, Nat.zero_le _, by simpa using Writes.refl s.client.sockfd s.effects⟩
  · dsimp only at ran
    split at ran
    · rename_i refused
      split at ran
      · cases ran
        exact ⟨rfl, Nat.zero_le _, refused ▸ asks _⟩
      · cases ran
    · cases ran
      exact ⟨rfl, result.count_le msg.length, asks _⟩

/-- A line of zeros. -/
theorem writeZeros_spec (more : remain ≠ 0)
    (ran : ClientState.writeMessage s (List.replicate (min remain maxLine) 0) result =
      some (next, ret)) :
    next.client = s.client ∧ ret ≤ remain ∧
      Writes s.client.sockfd s.effects next.effects (List.replicate ret 0) := by
  have spec := writeMessage_spec (by simp [maxLine]; omega) (by simp) ran
  simp only [List.length_replicate, List.take_replicate] at spec
  obtain ⟨same, within, wrote⟩ := spec
  rw [Nat.min_eq_left within] at wrote
  exact ⟨same, Nat.le_trans within (Nat.min_le_left _ _), wrote⟩

/-- A batch sends zeros, at most as many as it was asked for. -/
theorem writePacketInBatch_spec
    (ran : ClientState.writePacketInBatch s remain script = some (next, total)) :
    next.client = s.client ∧ total ≤ remain ∧
      Writes s.client.sockfd s.effects next.effects (List.replicate total 0) := by
  induction script generalizing s remain total with
  | nil =>
    unfold ClientState.writePacketInBatch at ran
    split at ran
    · cases ran
      exact ⟨rfl, Nat.zero_le _, Writes.refl _ _⟩
    · rename_i more
      exact writeZeros_spec more ran
  | cons result rest ih =>
    unfold ClientState.writePacketInBatch at ran
    split at ran
    · cases ran
      exact ⟨rfl, Nat.zero_le _, Writes.refl _ _⟩
    · rename_i more
      split at ran
      · cases ran
      · rename_i middle sent
        cases ran
        exact writeZeros_spec more sent
      · rename_i middle ret _ sent
        obtain ⟨same, within, wrote⟩ := writeZeros_spec more sent
        obtain ⟨⟨last, rest⟩, onward, done⟩ := Option.map_eq_some_iff.mp ran
        cases done
        obtain ⟨kept, bound, wroteMore⟩ := ih onward
        refine ⟨kept.trans same, by omega, ?_⟩
        rw [same] at wroteMore
        rw [List.replicate_add]
        exact wrote.trans wroteMore

private theorem firstPacket_eq (client : TcpClient) :
    ClientState.firstPacket client =
      announcement client.clientId client.totalByte ++ List.replicate 1392 0 := by
  have written := write_announcement (List.replicate maxLine 0) 1400 ClientState.line_room
    client.clientId client.totalByte (by decide)
  rw [List.drop_replicate] at written
  exact written

theorem firstPacket_length (client : TcpClient) :
    (ClientState.firstPacket client).length = maxLine := by
  rw [firstPacket_eq, List.length_append, announcement_length, List.length_replicate, maxLine]

/-- The client after its first packet, before the batch that follows it. -/
def opened (client : TcpClient) : TcpClient :=
  { client.increaseWriteBytes maxLine with firstSent := true }

@[simp] theorem opened_sendByte (client : TcpClient) :
    (opened client).sendByte = client.sendByte + UInt32.ofNat maxLine := by
  simp only [opened, TcpClient.increaseWriteBytes]

@[simp] theorem opened_totalByte (client : TcpClient) :
    (opened client).totalByte = client.totalByte := by
  simp only [opened, TcpClient.increaseWriteBytes]

/-- Every way `NextWriteTime` can return. -/
theorem nextWriteTime_spec
    (ran : ClientState.nextWriteTime s script nextTimems = some (next, time)) :
    next = s ∨
    (s.client.firstSent = true ∧ ∃ sent, sent ≤ s.client.getBatchSize.toNat ∧
      next.client = s.client.increaseWriteBytes sent ∧
      Writes s.client.sockfd s.effects next.effects (List.replicate sent 0)) ∨
    (s.client.firstSent = false ∧ ∃ sent, sent ≤ (opened s.client).getBatchSize.toNat ∧
      next.client = (opened s.client).increaseWriteBytes sent ∧
      Writes s.client.sockfd s.effects next.effects
        (ClientState.firstPacket s.client ++ List.replicate sent 0)) := by
  have batch : ∀ {mid : ClientState} {answers : List WriteResult},
      (mid.writeBatch answers).map (·, nextTimems) = some (next, time) →
      ∃ sent, sent ≤ mid.client.getBatchSize.toNat ∧
        next.client = mid.client.increaseWriteBytes sent ∧
        Writes mid.client.sockfd mid.effects next.effects (List.replicate sent 0) := by
    intro mid answers done
    obtain ⟨last, wrote, same⟩ := Option.map_eq_some_iff.mp done
    cases same
    obtain ⟨⟨last, sent⟩, looped, rfl⟩ := Option.map_eq_some_iff.mp wrote
    obtain ⟨same, bound, writes⟩ := writePacketInBatch_spec looped
    exact ⟨sent, bound, congrArg (TcpClient.increaseWriteBytes · sent) same, writes⟩
  unfold ClientState.nextWriteTime at ran
  split at ran
  · cases ran
    exact .inl rfl
  · split at ran
    · cases ran
      exact .inl rfl
    · split at ran
      · rename_i later
        exact .inr (.inl ⟨later, batch ran⟩)
      · rename_i fresh
        split at ran
        · cases ran
        · rename_i middle ret sent
          split at ran
          · rename_i whole
            obtain ⟨same, _, first⟩ := writeMessage_spec
              (by simp [firstPacket_length, maxLine]) (by simp [firstPacket_length]) sent
            rw [whole, ← firstPacket_length s.client, List.take_length] at first
            rw [whole, same] at ran
            obtain ⟨more, bound, client, writes⟩ := batch ran
            dsimp only [TcpClient.increaseWriteBytes] at writes
            exact .inr (.inr ⟨by simpa using fresh, more, bound, client, first.trans writes⟩)
          · cases ran

/-! ## The invariant -/

/-- A batch never asks for more than is left, nor for more than ten lines. -/
theorem getBatchSize_le (client : TcpClient) (within : client.sendByte ≤ client.totalByte) :
    client.getBatchSize.toNat ≤ client.totalByte.toNat - client.sendByte.toNat ∧
      client.getBatchSize.toNat ≤ 14000 := by
  have remain := toInt32_toNat_le (client.totalByte - client.sendByte)
  rw [UInt32.toNat_sub_of_le _ _ within] at remain
  simp only [TcpClient.getBatchSize, kPacketBatchSize, maxLine]
  omega

/-- What holds of a sender between calls of `NextWriteTime`. -/
structure SenderInv (s : ClientState) : Prop where
  large : 1400 ≤ s.client.totalByte.toNat
  within : s.client.sendByte ≤ s.client.totalByte
  accepted : accepted s.effects = (senderStream s.client).take s.client.sendByte.toNat
  fresh : s.client.firstSent = false → s.client.sendByte = 0
  started : s.client.firstSent = true → 1400 ≤ s.client.sendByte.toNat
  asked : ∀ fd msg count, .write fd msg count ∈ s.effects → 1 ≤ msg.length ∧ msg.length ≤ maxLine

theorem senderStream_length (client : TcpClient) (large : 1400 ≤ client.totalByte.toNat) :
    (senderStream client).length = client.totalByte.toNat := by
  rw [senderStream, List.length_append, announcement_length, List.length_replicate]
  omega

theorem SenderInv.accepted_length (inv : SenderInv s) :
    (SenderStream.accepted s.effects).length = s.client.sendByte.toNat := by
  have within := UInt32.le_iff_toNat_le.mp inv.within
  rw [inv.accepted, List.length_take, senderStream_length _ inv.large]
  omega

/-- Calls that are not writes, seen from the stream. -/
theorem accepted_quiet (quiet : ∀ effect ∈ effects, acceptedBy effect = []) :
    accepted effects = [] :=
  List.flatMap_eq_nil_iff.mpr quiet

theorem SenderInv.frame (inv : SenderInv s) (clientId : next.client.clientId = s.client.clientId)
    (totalByte : next.client.totalByte = s.client.totalByte)
    (sendByte : next.client.sendByte = s.client.sendByte)
    (firstSent : next.client.firstSent = s.client.firstSent)
    (effects : next.effects = s.effects ++ calls)
    (quiet : ∀ fd msg count, .write fd msg count ∉ calls) : SenderInv next := by
  have silent : SenderStream.accepted calls = [] := by
    apply accepted_quiet
    intro effect member
    cases effect with
    | write fd msg count => exact absurd member (quiet fd msg count)
    | _ => rfl
  refine ⟨?_, ?_, ?_, ?_, ?_, ?_⟩
  · rw [totalByte]; exact inv.large
  · rw [sendByte, totalByte]; exact inv.within
  · rw [effects, accepted_append, silent, List.append_nil, inv.accepted, sendByte, senderStream,
      senderStream, clientId, totalByte]
  · rw [firstSent, sendByte]; exact inv.fresh
  · rw [firstSent, sendByte]; exact inv.started
  · intro fd msg count member
    rw [effects] at member
    exact inv.asked fd msg count ((List.mem_append.mp member).resolve_right (quiet fd msg count))

/-- Zeros sent past the announcement continue the stream. -/
theorem senderStream_take_add (client : TcpClient) (sent more : Nat) (begun : 8 ≤ sent)
    (room : sent + more ≤ client.totalByte.toNat) :
    (senderStream client).take sent ++ List.replicate more 0 =
      (senderStream client).take (sent + more) := by
  rw [List.take_add, senderStream, List.drop_append, announcement_length,
    List.drop_eq_nil_of_le (by simpa using begun), List.nil_append, List.drop_replicate,
    List.take_replicate, Nat.min_eq_left (by omega)]

private theorem firstPacket_stream (client : TcpClient) (large : 1400 ≤ client.totalByte.toNat) :
    ClientState.firstPacket client = (senderStream client).take 1400 := by
  have whole := senderStream_take_add client 8 1392 (Nat.le_refl 8) (by omega)
  rw [← whole, firstPacket_eq, senderStream, List.take_append_of_le_length (by simp),
    List.take_of_length_le (by simp)]

private theorem Writes.asked (writes : Writes fd before after piece)
    (asked : ∀ fd msg count, .write fd msg count ∈ before → 1 ≤ msg.length ∧ msg.length ≤ maxLine) :
    ∀ fd msg count, .write fd msg count ∈ after → 1 ≤ msg.length ∧ msg.length ≤ maxLine := by
  obtain ⟨calls, rfl, _, asks⟩ := writes
  intro fd msg count member
  rcases List.mem_append.mp member with member | member
  · exact asked fd msg count member
  · obtain ⟨_, _, same, something, line⟩ := asks _ member
    cases same
    exact ⟨something, line⟩

theorem increaseWriteBytes_toNat (client : TcpClient) (size : Nat)
    (room : client.sendByte.toNat + size ≤ client.totalByte.toNat) :
    (client.increaseWriteBytes size).sendByte.toNat = client.sendByte.toNat + size := by
  have bound := client.totalByte.toNat_lt
  simp only [TcpClient.increaseWriteBytes, UInt32.toNat_add, UInt32.toNat_ofNat']
  omega

/-- The client after `size` further bytes, the first packet among them at the latest. -/
theorem SenderInv.advance (inv : SenderInv s) (sendByte : UInt32)
    (client : next.client = { s.client with sendByte, firstSent := true })
    (count : sendByte.toNat = s.client.sendByte.toNat + size)
    (begun : 1400 ≤ s.client.sendByte.toNat + size)
    (room : s.client.sendByte.toNat + size ≤ s.client.totalByte.toNat)
    (writes : Writes fd s.effects next.effects piece)
    (continues : (senderStream s.client).take s.client.sendByte.toNat ++ piece =
      (senderStream s.client).take (s.client.sendByte.toNat + size)) : SenderInv next := by
  have asked := writes.asked inv.asked
  obtain ⟨calls, effects, took, _⟩ := writes
  refine ⟨?_, ?_, ?_, ?_, ?_, asked⟩
  · simpa only [client] using inv.large
  · rw [client, UInt32.le_iff_toNat_le]
    simpa only [count] using room
  · rw [effects, accepted_append, took, inv.accepted, continues, client, ← count]
    rfl
  · simp [client]
  · simpa [client, count] using begun

/-- What one call of `NextWriteTime` changes: the progress it reports, by calls
of `write` alone. -/
structure Sent (s next : ClientState) : Prop where
  client : ∃ sendByte firstSent, next.client = { s.client with sendByte, firstSent }
  writes : ∃ piece, Writes s.client.sockfd s.effects next.effects piece
  most : next.client.sendByte.toNat ≤ s.client.sendByte.toNat + (1400 + 14000)

private theorem nextWriteTime_inv (inv : SenderInv s)
    (ran : ClientState.nextWriteTime s script nextTimems = some (next, time)) :
    SenderInv next ∧ Sent s next := by
  have within := UInt32.le_iff_toNat_le.mp inv.within
  rcases nextWriteTime_spec ran with rfl | ⟨later, sent, bound, client, writes⟩ |
    ⟨fresh, sent, bound, client, writes⟩
  · exact ⟨inv, ⟨_, _, rfl⟩, ⟨[], Writes.refl _ _⟩, by omega⟩
  · have begun := inv.started later
    obtain ⟨left, batch⟩ := getBatchSize_le s.client inv.within
    have count := increaseWriteBytes_toNat s.client sent (by omega)
    have shape : next.client =
        { s.client with sendByte := s.client.sendByte + UInt32.ofNat sent, firstSent := true } := by
      rw [client, TcpClient.increaseWriteBytes, ← later]
    refine ⟨inv.advance _ shape count (by omega) (by omega) writes ?_, ⟨_, _, shape⟩, ⟨_, writes⟩, ?_⟩
    · exact senderStream_take_add s.client _ _ (by omega) (by omega)
    · rw [client, count]
      omega
  · have none := inv.fresh fresh
    have large := inv.large
    have same : (opened s.client).sendByte.toNat = 1400 := by
      rw [opened_sendByte, none]
      decide
    have small : (opened s.client).sendByte ≤ (opened s.client).totalByte := by
      rw [UInt32.le_iff_toNat_le, same, opened_totalByte]
      exact large
    obtain ⟨left, batch⟩ := getBatchSize_le (opened s.client) small
    rw [same, opened_totalByte] at left
    have count := increaseWriteBytes_toNat (opened s.client) sent
      (by rw [same, opened_totalByte]; omega)
    have shape : next.client = { s.client with
        sendByte := (opened s.client).sendByte + UInt32.ofNat sent, firstSent := true } := by
      simp only [client, opened, TcpClient.increaseWriteBytes]
    have zero : s.client.sendByte.toNat = 0 := by rw [none]; rfl
    have total : ((opened s.client).sendByte + UInt32.ofNat sent).toNat =
        s.client.sendByte.toNat + (1400 + sent) := by
      rw [zero, Nat.zero_add, ← same]
      exact count
    refine ⟨inv.advance _ shape total (by omega) (by omega) writes ?_, ⟨_, _, shape⟩, ⟨_, writes⟩, ?_⟩
    · rw [zero, List.take_zero, List.nil_append, Nat.zero_add, firstPacket_stream _ large]
      exact senderStream_take_add s.client _ _ (by omega) (by omega)
    · rw [shape, total]
      omega

/-! ## Whole runs -/

/-- One call of `NextWriteTime`: what the socket answers to its writes, and the
random delay. -/
structure WriteCall where
  script : List WriteResult
  nextTimems : Int

def writeStep (s : ClientState) (call : WriteCall) : Option ClientState :=
  (s.nextWriteTime call.script call.nextTimems).map (·.1)

/-- A client that holds the socket `fd` and was given its id and length. -/
def sender (cid length : UInt32) (fd : Int) (errno : Errno) : ClientState where
  client := TcpClient.setSenderInfo { sockfd := fd } cid length
  errno := errno
  effects := []

private theorem sender_total (cid length : UInt32) (fd : Int) (errno : Errno) :
    1400 ≤ (sender cid length fd errno).client.totalByte.toNat := by
  simp only [sender, TcpClient.setSenderInfo]
  split
  · decide
  · rename_i enough
    exact UInt32.le_iff_toNat_le.mp (UInt32.not_lt.mp enough)

theorem sender_inv (cid length : UInt32) (fd : Int) (errno : Errno) :
    SenderInv (sender cid length fd errno) where
  large := sender_total cid length fd errno
  within := UInt32.le_iff_toNat_le.mpr (Nat.zero_le _)
  accepted := rfl
  fresh _ := rfl
  started := by simp [sender, TcpClient.setSenderInfo]
  asked := by simp [sender]

theorem writeStep_spec (inv : SenderInv s) (took : writeStep s call = some next) :
    SenderInv next ∧ Sent s next := by
  obtain ⟨⟨_, time⟩, ran, rfl⟩ := Option.map_eq_some_iff.mp took
  exact nextWriteTime_inv inv ran

/-- A run keeps the invariant, the id and the total. -/
theorem sender_run (ran : run writeStep (sender cid length fd errno) calls = some s) :
    SenderInv s ∧ s.client.clientId = cid ∧
      s.client.totalByte = (sender cid length fd errno).client.totalByte := by
  refine run_invariant (P := fun s => SenderInv s ∧ s.client.clientId = cid ∧
    s.client.totalByte = (sender cid length fd errno).client.totalByte)
    ⟨sender_inv cid length fd errno, rfl, rfl⟩ ?_ ran
  rintro mid call next ⟨inv, id, total⟩ took
  obtain ⟨kept, ⟨_, _, client⟩, _, _⟩ := writeStep_spec inv took
  exact ⟨kept, by rw [client]; exact id, by rw [client]; exact total⟩

/-- The socket never holds anything but a prefix of the announced stream, the
client's count is exact and within its total, and no call or write oversteps
its size. -/
theorem sender_stream_integrity (cid length : UInt32) (fd : Int) (errno : Errno)
    (calls : List WriteCall) (s : ClientState)
    (ran : run writeStep (sender cid length fd errno) calls = some s) :
    s.client.clientId = cid ∧
    s.client.totalByte = (if length < 1400 then 1400 else length) ∧
    (senderStream s.client).length = s.client.totalByte.toNat ∧
    accepted s.effects <+: senderStream s.client ∧
    s.client.sendByte.toNat = (accepted s.effects).length ∧
    s.client.sendByte ≤ s.client.totalByte ∧
    (∀ fd msg count, .write fd msg count ∈ s.effects → 1 ≤ msg.length ∧ msg.length ≤ 1400) ∧
    ∀ call next, writeStep s call = some next →
      (accepted next.effects).length ≤ (accepted s.effects).length + (1400 + 14000) := by
  obtain ⟨inv, id, total⟩ := sender_run ran
  refine ⟨id, total, senderStream_length _ inv.large, ?_, inv.accepted_length.symm, inv.within,
    inv.asked, ?_⟩
  · rw [inv.accepted]
    exact List.take_prefix _ _
  · intro call next took
    obtain ⟨kept, sent⟩ := writeStep_spec inv took
    rw [kept.accepted_length, inv.accepted_length]
    exact sent.most

/-- A first call whose batch is cut short, and a second one that the socket
takes in pieces. -/
def shortCalls : List WriteCall :=
  [⟨[.accepted 1400, .accepted 900, .error EAGAIN], 4⟩, ⟨[.accepted 1, .accepted 1400], 0⟩]

theorem short_calls_integrity : ∃ s, run writeStep (sender 7 3000 5 0) shortCalls = some s ∧
    accepted s.effects <+: senderStream s.client ∧
    s.client.sendByte.toNat = (accepted s.effects).length := by
  obtain ⟨s, ran⟩ : ∃ s, run writeStep (sender 7 3000 5 0) shortCalls = some s :=
    Option.isSome_iff_exists.mp (by decide +kernel)
  have held := sender_stream_integrity 7 3000 5 0 shortCalls s ran
  exact ⟨s, ran, held.2.2.2.1, held.2.2.2.2.1⟩

end TcpCongestion.SenderStream
