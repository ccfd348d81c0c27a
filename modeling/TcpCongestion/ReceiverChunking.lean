import TcpCongestion.Runs
import TcpCongestion.TcpPeerProofs

/-! What a receiver makes of a stream, and how far that depends on where `read`
cuts it. The first cut decides what the header parser sees, and every cut is a
point at which the 32-bit count is compared with the total. -/
namespace TcpCongestion.ReceiverChunking
open Posix ByteCodec ByteCodecProofs TcpPeerProofs Runs

/-- A `read` that returned data, and the answer to the done message should this
read be the one that sends it. -/
structure Read where
  chunk : Chunk kBufferSize
  write : WriteResult

/-- One `NotifiRead`: the wall clock, the data it reads, and how the last `read`
ends it, `none` for a count of zero. -/
structure Callback where
  now : Int32
  reads : List Read
  stop : Option Errno

/-- What the uninitialised `first` and `second` happen to hold. -/
structure Locals where
  first : UInt32
  second : UInt32

def Read.input (locals : Locals) (read : Read) : PeerInput where
  result := .data read.chunk
  first := locals.first
  second := locals.second
  write := read.write

def Callback.inputs (locals : Locals) (callback : Callback) : List PeerInput :=
  callback.reads.map (·.input locals) ++
    [⟨callback.stop.elim .eof .error, locals.first, locals.second, .accepted 0⟩]

/-- The pieces in which a stream arrives. -/
def chunks (callbacks : List Callback) : List (List UInt8) :=
  callbacks.flatMap fun callback => callback.reads.map (·.chunk.bytes)

def deliver (locals : Locals) : PeerState → List Callback → Option PeerState :=
  run fun s callback => s.notifiRead callback.now (callback.inputs locals)

/-- A peer that has just been accepted. -/
def freshPeer (fd : Int) (errno : Errno) : PeerState where
  peer := { sockfd := fd, tracRecv := true }
  errno := errno
  effects := []

/-- No done message meets a dead socket. -/
def Survives (callbacks : List Callback) : Prop :=
  ∀ callback ∈ callbacks, ∀ read ∈ callback.reads, Harmless read.write

/-- The first piece holds the whole announcement. -/
def HeaderWhole (pieces : List (List UInt8)) : Prop :=
  ∀ first, pieces.head? = some first → 8 ≤ first.length

/-- At the end of some piece the 32-bit count is at or past the total. -/
def Lands (total : UInt32) (pieces : List (List UInt8)) : Prop :=
  ∃ before, before ≠ [] ∧ before <+: pieces ∧ total.toNat ≤ before.flatten.length % 2 ^ 32

instance (total : UInt32) (pieces : List (List UInt8)) : Decidable (Lands total pieces) :=
  decidable_of_iff (∃ before ∈ pieces.inits, before ≠ [] ∧
    total.toNat ≤ before.flatten.length % 2 ^ 32) (by
      simp only [List.mem_inits, Lands]
      exact exists_congr fun _ => and_left_comm)

/-- The state of a peer that has read `pieces`. -/
structure Consumed (locals : Locals) (pieces : List (List UInt8)) (s : PeerState) : Prop where
  firstPacket : s.peer.firstPacket = pieces.isEmpty
  recvByte : s.peer.recvByte = UInt32.ofNat pieces.flatten.length
  clientId : ∀ first, pieces.head? = some first →
    s.peer.clientId = (header first).1.getD locals.first
  totalByte : ∀ first, pieces.head? = some first →
    s.peer.totalByte = (header first).2.getD locals.second
  sendReadDone : s.peer.sendReadDone = true ↔ Lands s.peer.totalByte pieces

private theorem freshPeer_consumed (locals : Locals) (fd : Int) (errno : Errno) :
    Consumed locals [] (freshPeer fd errno) :=
  ⟨rfl, rfl, by simp, by simp, by simp +contextual [freshPeer, Lands]⟩

theorem lands_concat (total : UInt32) (pieces : List (List UInt8)) (piece : List UInt8) :
    Lands total (pieces ++ [piece]) ↔ Lands total pieces ∨
      total ≤ UInt32.ofNat (pieces ++ [piece]).flatten.length := by
  rw [UInt32.le_iff_toNat_le, UInt32.toNat_ofNat']
  constructor
  · rintro ⟨before, some_read, part, reached⟩
    rcases List.prefix_concat_iff.mp part with rfl | shorter
    · exact .inr reached
    · exact .inl ⟨before, some_read, shorter, reached⟩
  · rintro (⟨before, some_read, part, reached⟩ | reached)
    · exact ⟨before, some_read, part.trans (List.prefix_append _ _), reached⟩
    · exact ⟨_, by simp, List.prefix_rfl, reached⟩

/-- One more piece. -/
theorem Consumed.data (held : Consumed locals pieces s) (turn : DataTurn s bytes input next)
    (first : input.first = locals.first) (second : input.second = locals.second) :
    Consumed locals (pieces ++ [bytes]) next := by
  have recvByte : next.peer.recvByte = UInt32.ofNat (pieces ++ [bytes]).flatten.length := by
    rw [turn.recvByte, held.recvByte, ← UInt32.ofNat_add]
    simp
  have head : ∀ opening, (pieces ++ [bytes]).head? = some opening →
      next.peer.clientId = (header opening).1.getD locals.first ∧
      next.peer.totalByte = (header opening).2.getD locals.second := by
    intro opening starts
    cases pieces with
    | nil =>
      cases starts
      rw [turn.clientId, turn.totalByte, held.firstPacket, first, second]
      exact ⟨rfl, rfl⟩
    | cons piece rest =>
      cases starts
      rw [turn.clientId, turn.totalByte, held.firstPacket]
      exact ⟨held.clientId _ rfl, held.totalByte _ rfl⟩
  refine ⟨by rw [turn.firstPacket]; simp, recvByte, fun opening starts => (head opening starts).1,
    fun opening starts => (head opening starts).2, ?_⟩
  rw [turn.sendReadDone, Bool.or_eq_true, decide_eq_true_iff, held.sendReadDone, lands_concat,
    recvByte]
  cases pieces with
  | nil => simp [Lands]
  | cons piece rest =>
    rw [turn.totalByte, held.firstPacket]
    simp

/-- Leaving the loop changes none of it. -/
theorem Consumed.ended (held : Consumed locals pieces s) (errno : Errno) :
    Consumed locals pieces { s with errno }.onReadEnd := by
  obtain ⟨sockfd, tracRecv, same⟩ := onReadEnd_peer { s with errno }
  constructor <;> rw [same]
  · exact held.firstPacket
  · exact held.recvByte
  · exact held.clientId
  · exact held.totalByte
  · exact held.sendReadDone

private theorem callback_consumed (held : Consumed locals pieces s)
    (ran : s.notifiRead now (Callback.inputs locals ⟨now, reads, stop⟩) = some next) :
    Consumed locals (pieces ++ reads.map (·.chunk.bytes)) next := by
  induction reads generalizing s pieces with
  | nil =>
    cases stop <;> cases ran <;> simpa using held.ended _
  | cons read rest ih =>
    rw [Callback.inputs, List.map_cons, List.cons_append, PeerState.notifiRead] at ran
    split at ran
    · cases ran
    · rename_i turned
      rcases turn_spec turned with ⟨_, _, again, _⟩ | ⟨other, _⟩
      · cases again
      · exact absurd rfl (other read.chunk)
    · rename_i turned
      rcases turn_spec turned with ⟨chunk, result, _, turn⟩ | ⟨_, again, _⟩
      · cases result
        have longer := ih (held.data turn rfl rfl) ran
        rwa [List.append_assoc] at longer
      · cases again

private theorem deliver_consumed (held : Consumed locals pieces s)
    (ran : deliver locals s callbacks = some next) :
    Consumed locals (pieces ++ chunks callbacks) next := by
  induction callbacks generalizing s pieces with
  | nil =>
    cases ran
    simpa [chunks] using held
  | cons callback rest ih =>
    obtain ⟨mid, returned, onward⟩ := Option.bind_eq_some_iff.mp ran
    have longer := ih (callback_consumed held returned) onward
    rwa [List.append_assoc] at longer

private theorem callback_runs (locals : Locals) (s : PeerState) (now : Int32) (reads : List Read)
    (stop : Option Errno) (harmless : ∀ read ∈ reads, Harmless read.write) :
    ∃ next, s.notifiRead now (Callback.inputs locals ⟨now, reads, stop⟩) = some next := by
  induction reads generalizing s with
  | nil => cases stop <;> exact ⟨_, rfl⟩
  | cons read rest ih =>
    obtain ⟨next, again, turned⟩ := turn_runs s now (read.input locals)
      (harmless read List.mem_cons_self)
    rw [Callback.inputs, List.map_cons, List.cons_append, PeerState.notifiRead, turned]
    cases again with
    | false => exact ⟨next, rfl⟩
    | true => exact ih next fun other member => harmless other (List.mem_cons_of_mem _ member)

private theorem deliver_runs (locals : Locals) (s : PeerState) (survives : Survives callbacks) :
    ∃ next, deliver locals s callbacks = some next := by
  induction callbacks generalizing s with
  | nil => exact ⟨s, rfl⟩
  | cons callback rest ih =>
    obtain ⟨mid, returned⟩ := callback_runs locals s callback.now callback.reads callback.stop
      (survives callback List.mem_cons_self)
    obtain ⟨next, onward⟩ := ih mid fun other member =>
      survives other (List.mem_cons_of_mem _ member)
    exact ⟨next, Option.bind_eq_some_iff.mpr ⟨mid, returned, onward⟩⟩

/-! ## Where the count can land -/

/-- A stream that gets to the total has a first piece that ends there, less than
one buffer past it. -/
theorem first_landing (pieces : List (List UInt8))
    (fits : ∀ piece ∈ pieces, piece.length ≤ kBufferSize) (below : seen < total)
    (enough : total ≤ seen + pieces.flatten.length) :
    ∃ before, before ≠ [] ∧ before <+: pieces ∧ total ≤ seen + before.flatten.length ∧
      seen + before.flatten.length < total + kBufferSize := by
  induction pieces generalizing seen with
  | nil => simp at enough; omega
  | cons piece rest ih =>
    have small := fits piece List.mem_cons_self
    rw [List.flatten_cons, List.length_append, ← Nat.add_assoc] at enough
    by_cases here : total ≤ seen + piece.length
    · exact ⟨[piece], by simp, by simp, by simpa using here, by simp; omega⟩
    · obtain ⟨before, _, part, reached, close⟩ := ih
        (fun other member => fits other (List.mem_cons_of_mem _ member)) (by omega) enough
      refine ⟨piece :: before, by simp, by simpa using part, ?_, ?_⟩
      · rw [List.flatten_cons, List.length_append]
        omega
      · rw [List.flatten_cons, List.length_append]
        omega

/-- Short of the corner where the counter wraps inside the last buffer, landing
is a matter of the stream's length alone. -/
theorem lands_iff (pieces : List (List UInt8)) (total : UInt32)
    (fits : ∀ piece ∈ pieces, piece.length ≤ kBufferSize) (some_read : pieces ≠ [])
    (roomy : pieces.flatten.length < 2 ^ 32 ∨ total.toNat + kBufferSize ≤ 2 ^ 32) :
    Lands total pieces ↔ total.toNat ≤ pieces.flatten.length := by
  constructor
  · rintro ⟨before, _, ⟨after, rfl⟩, reached⟩
    rw [List.flatten_append, List.length_append]
    exact Nat.le_trans reached (Nat.le_trans (Nat.mod_le _ _) (Nat.le_add_right _ _))
  · intro enough
    rcases roomy with short | low
    · exact ⟨pieces, some_read, List.prefix_rfl, by rwa [Nat.mod_eq_of_lt short]⟩
    · by_cases zero : total.toNat = 0
      · exact ⟨pieces, some_read, List.prefix_rfl, by omega⟩
      · obtain ⟨before, nonempty, part, reached, close⟩ :=
          first_landing pieces fits (Nat.pos_of_ne_zero zero) (by simpa using enough)
        rw [Nat.zero_add] at reached close
        exact ⟨before, nonempty, part, by rwa [Nat.mod_eq_of_lt (by omega)]⟩

private theorem chunks_fit (callbacks : List Callback) :
    ∀ piece ∈ chunks callbacks, piece.length ≤ kBufferSize := by
  intro piece member
  obtain ⟨callback, _, member⟩ := List.mem_flatMap.mp member
  obtain ⟨read, _, rfl⟩ := List.mem_map.mp member
  exact read.chunk.fits

/-! ## Two ways of cutting one stream -/

/-- Both peers know the announced id and total and agree on the rest. -/
structure SameOutcome (id total : UInt32) (one two : PeerState) : Prop where
  clientId : one.peer.clientId = id ∧ two.peer.clientId = id
  totalByte : one.peer.totalByte = total ∧ two.peer.totalByte = total
  recvByte : one.peer.recvByte = two.peer.recvByte
  sendReadDone : one.peer.sendReadDone = two.peer.sendReadDone

/-- Whatever the stack holds, both deliveries finish with the same outcome. -/
def Independent (id total : UInt32) (fd : Int) (errno : Errno) (one two : List Callback) : Prop :=
  ∀ mine yours, ∃ s t, deliver mine (freshPeer fd errno) one = some s ∧
    deliver yours (freshPeer fd errno) two = some t ∧ SameOutcome id total s t

private theorem announced_length {id total : UInt32}
    (stream : (chunks callbacks).flatten = announcement id total ++ payload) :
    (chunks callbacks).flatten.length = 8 + payload.length := by
  simp [stream]

private theorem announced_nonempty {id total : UInt32}
    (stream : (chunks callbacks).flatten = announcement id total ++ payload) :
    chunks callbacks ≠ [] := by
  intro empty
  have length := announced_length stream
  rw [empty, List.flatten_nil, List.length_nil] at length
  omega

/-- A delivery whose first piece holds the announcement, read to its end. -/
theorem delivered {id total : UInt32} (whole : HeaderWhole (chunks callbacks))
    (stream : (chunks callbacks).flatten = announcement id total ++ payload)
    (ran : deliver locals (freshPeer fd errno) callbacks = some s) :
    s.peer.clientId = id ∧ s.peer.totalByte = total ∧
      s.peer.recvByte = UInt32.ofNat (announcement id total ++ payload).length ∧
      (s.peer.sendReadDone = true ↔ Lands total (chunks callbacks)) := by
  have held := deliver_consumed (freshPeer_consumed locals fd errno) ran
  rw [List.nil_append] at held
  have fits := chunks_fit callbacks
  cases pieces : chunks callbacks with
  | nil => exact absurd pieces (announced_nonempty stream)
  | cons first rest =>
    rw [pieces] at whole stream held fits
    -- the first piece starts the stream and is at least as long as the announcement
    obtain ⟨tail, rfl⟩ : announcement id total <+: first := by
      have starts : announcement id total <+: first ++ rest.flatten :=
        ⟨payload, by rw [← stream, List.flatten_cons]⟩
      exact List.prefix_of_prefix_length_le starts (List.prefix_append _ _)
        (by simpa using whole first rfl)
    have parsed := header_announcement id total tail (fits _ List.mem_cons_self)
    have clientId := held.clientId _ rfl
    have totalByte := held.totalByte _ rfl
    rw [parsed] at clientId totalByte
    refine ⟨clientId, totalByte, ?_, ?_⟩
    · rw [held.recvByte, stream]
    · rw [held.sendReadDone, totalByte]
      rfl

/-- A first piece that cuts the announcement leaves the total to the stack. -/
theorem total_from_stack (short : (chunks callbacks).head? = some first) (cut : first.length < 8)
    (ran : deliver locals (freshPeer fd errno) callbacks = some s) :
    s.peer.totalByte = locals.second := by
  have held := deliver_consumed (freshPeer_consumed locals fd errno) ran
  rw [List.nil_append] at held
  rw [held.totalByte first short, header_short first cut, Option.getD_none]

/-- Two deliveries of one stream agree exactly when both begin with the whole
announcement and, in the corner where the stream is as long as the counter's
range and the total lies within a buffer of it, both or neither have a cut at
which the wrapped count is past the total. -/
theorem chunking_independent_iff (id total : UInt32) (payload : List UInt8) (fd : Int)
    (errno : Errno) (one two : List Callback)
    (streamOne : (chunks one).flatten = announcement id total ++ payload)
    (streamTwo : (chunks two).flatten = announcement id total ++ payload)
    (liveOne : Survives one) (liveTwo : Survives two) :
    Independent id total fd errno one two ↔
      HeaderWhole (chunks one) ∧ HeaderWhole (chunks two) ∧
      (8 + payload.length < 2 ^ 32 ∨ total.toNat + 1500 ≤ 2 ^ 32 ∨
        (Lands total (chunks one) ↔ Lands total (chunks two))) := by
  have odd : total + 1 ≠ total := by simp
  constructor
  · intro independent
    have wholeOne : HeaderWhole (chunks one) := by
      intro first starts
      by_contra cut
      obtain ⟨s, t, ranOne, _, same⟩ := independent ⟨0, total + 1⟩ ⟨0, 0⟩
      have total := total_from_stack starts (by omega) ranOne
      exact odd (total.symm.trans same.totalByte.1)
    have wholeTwo : HeaderWhole (chunks two) := by
      intro first starts
      by_contra cut
      obtain ⟨s, t, _, ranTwo, same⟩ := independent ⟨0, 0⟩ ⟨0, total + 1⟩
      have total := total_from_stack starts (by omega) ranTwo
      exact odd (total.symm.trans same.totalByte.2)
    obtain ⟨s, t, ranOne, ranTwo, same⟩ := independent ⟨0, 0⟩ ⟨0, 0⟩
    refine ⟨wholeOne, wholeTwo, .inr (.inr ?_)⟩
    rw [← (delivered wholeOne streamOne ranOne).2.2.2, same.sendReadDone,
      (delivered wholeTwo streamTwo ranTwo).2.2.2]
  · rintro ⟨wholeOne, wholeTwo, corner⟩ mine yours
    obtain ⟨s, ranOne⟩ := deliver_runs mine (freshPeer fd errno) liveOne
    obtain ⟨t, ranTwo⟩ := deliver_runs yours (freshPeer fd errno) liveTwo
    obtain ⟨idOne, totalOne, countOne, doneOne⟩ := delivered wholeOne streamOne ranOne
    obtain ⟨idTwo, totalTwo, countTwo, doneTwo⟩ := delivered wholeTwo streamTwo ranTwo
    refine ⟨s, t, ranOne, ranTwo, ⟨idOne, idTwo⟩, ⟨totalOne, totalTwo⟩,
      countOne.trans countTwo.symm, ?_⟩
    rw [Bool.eq_iff_iff, doneOne, doneTwo]
    have roomy (low : 8 + payload.length < 2 ^ 32 ∨ total.toNat + 1500 ≤ 2 ^ 32)
        (callbacks : List Callback)
        (stream : (chunks callbacks).flatten = announcement id total ++ payload) :
        Lands total (chunks callbacks) ↔ total.toNat ≤ 8 + payload.length := by
      rw [← announced_length stream] at low ⊢
      exact lands_iff _ total (chunks_fit callbacks) (announced_nonempty stream) low
    rcases corner with short | low | same
    · rw [roomy (.inl short) one streamOne, roomy (.inl short) two streamTwo]
    · rw [roomy (.inr low) one streamOne, roomy (.inr low) two streamTwo]
    · exact same

/-- A callback that reads twice and then finds nothing more. -/
def twoReads (first second : Chunk kBufferSize) : List Callback :=
  [{ now := 0
     reads := [⟨first, .accepted 14⟩, ⟨second, .accepted 14⟩]
     stop := some EAGAIN }]

private theorem twoReads_survives (first second : Chunk kBufferSize) :
    Survives (twoReads first second) := by
  simp [Survives, twoReads, Harmless]

/-- Sixteen bytes of a connection that announces a hundred, cut after the header. -/
def cutAfterHeader : List Callback :=
  twoReads (.next 0 [0, 0, 1, 0, 0, 0, 100]) (.next 0 (List.replicate 7 0))

/-- The same bytes, cut one byte later. -/
def cutInPayload : List Callback :=
  twoReads (.next 0 [0, 0, 1, 0, 0, 0, 100, 0]) (.next 0 (List.replicate 6 0))

/-- The same bytes, cut inside the header. -/
def cutInHeader : List Callback :=
  twoReads (.next 0 [0, 0, 1]) (.next 0 ([0, 0, 100] ++ List.replicate 8 0))

theorem whole_headers_agree : Independent 1 100 5 0 cutAfterHeader cutInPayload :=
  (chunking_independent_iff 1 100 (List.replicate 8 0) 5 0 _ _ (by decide) (by decide)
    (twoReads_survives _ _) (twoReads_survives _ _)).mpr
    ⟨by simp [HeaderWhole, chunks, twoReads, Chunk.next],
     by simp [HeaderWhole, chunks, twoReads, Chunk.next], .inl (by simp)⟩

/-- Cut after four bytes, the same stream reports completion against a total of
zero from the stack. -/
theorem cut_header_disagrees :
    (chunks cutInHeader).flatten = (chunks cutAfterHeader).flatten ∧
    ∃ s t, deliver ⟨0, 0⟩ (freshPeer 5 0) cutAfterHeader = some s ∧
      deliver ⟨0, 0⟩ (freshPeer 5 0) cutInHeader = some t ∧
      s.peer.totalByte = 100 ∧ t.peer.totalByte = 0 ∧
      s.peer.sendReadDone = false ∧ t.peer.sendReadDone = true := by
  refine ⟨by decide, ?_⟩
  have whole : (deliver ⟨0, 0⟩ (freshPeer 5 0) cutAfterHeader).map
      (fun s => (s.peer.totalByte, s.peer.sendReadDone)) = some (100, false) := by decide +kernel
  have cut : (deliver ⟨0, 0⟩ (freshPeer 5 0) cutInHeader).map
      (fun s => (s.peer.totalByte, s.peer.sendReadDone)) = some (0, true) := by decide +kernel
  obtain ⟨s, ranWhole, known⟩ := Option.map_eq_some_iff.mp whole
  obtain ⟨t, ranCut, lost⟩ := Option.map_eq_some_iff.mp cut
  rw [Prod.mk.injEq] at known lost
  exact ⟨s, t, ranWhole, ranCut, known.1, lost.1, known.2, lost.2⟩

end TcpCongestion.ReceiverChunking
