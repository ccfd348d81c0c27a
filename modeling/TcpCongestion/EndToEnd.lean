import TcpCongestion.Counters
import TcpCongestion.ReceiverChunking
import TcpCongestion.SenderStream
import TcpCongestion.TcpClientProofs

/-! Clients and their peers over reliable streams. The kernel hands each side a
further piece of what the other side's socket has accepted, in order and
without loss; everything else is left to it: when, how much, and how any call
fails. -/
namespace TcpCongestion.EndToEnd
open Posix ByteCodecProofs TcpPeerProofs SenderStream Runs

/-- The bytes a peer has read from its socket. -/
def received (effects : List PeerEffect) : List UInt8 :=
  effects.flatMap fun
    | .read bytes => bytes
    | _ => []

/-- The bytes a peer's socket has accepted. -/
def replied (effects : List PeerEffect) : List UInt8 :=
  effects.flatMap fun
    | .write bytes => bytes
    | _ => []

/-- The bytes a client has read from its socket. -/
def acknowledged (effects : List ClientEffect) : List UInt8 :=
  effects.flatMap fun
    | .read _ bytes => bytes
    | _ => []

/-- How often a client has called `counter_->Decrease()`. -/
def decreases (effects : List ClientEffect) : Nat := effects.count .decrease

@[simp] theorem received_append (before after : List PeerEffect) :
    received (before ++ after) = received before ++ received after :=
  List.flatMap_append

@[simp] theorem replied_append (before after : List PeerEffect) :
    replied (before ++ after) = replied before ++ replied after :=
  List.flatMap_append

@[simp] theorem acknowledged_append (before after : List ClientEffect) :
    acknowledged (before ++ after) = acknowledged before ++ acknowledged after :=
  List.flatMap_append

@[simp] theorem decreases_append (before after : List ClientEffect) :
    decreases (before ++ after) = decreases before + decreases after :=
  List.count_append

structure Connection where
  client : ClientState
  peer : PeerState

/-- What can happen on one connection. `errno` belongs to each process as a
whole, so calls elsewhere may change it at any time. -/
inductive Action where
  | nextWriteTime (call : WriteCall)
  | peerRead (now : Int32) (input : PeerInput)
  | clientRead (input : ClientInput)
  | failedCalls (client peer : Errno)

/-- The peer's kernel hands out what comes next of the client's bytes, and the
first time at least the announcement. -/
def peerMayRead (c : Connection) : ReadResult kBufferSize → Prop
  | .data chunk => 0 < c.peer.peer.sockfd ∧
      received c.peer.effects ++ chunk.bytes <+: accepted c.client.effects ∧
      (c.peer.peer.firstPacket = true → 8 ≤ chunk.bytes.length)
  | _ => True

/-- The client's kernel hands out what comes next of the peer's bytes. -/
def clientMayRead (c : Connection) : ReadResult maxLine → Prop
  | .data chunk => 0 < c.client.client.sockfd ∧
      acknowledged c.client.effects ++ chunk.bytes <+: replied c.peer.effects
  | _ => True

instance (c : Connection) : (result : ReadResult kBufferSize) → Decidable (peerMayRead c result)
  | .data _ => inferInstanceAs (Decidable (_ ∧ _ ∧ (_ → _)))
  | .eof => .isTrue trivial
  | .error _ => .isTrue trivial

instance (c : Connection) : (result : ReadResult maxLine) → Decidable (clientMayRead c result)
  | .data _ => inferInstanceAs (Decidable (_ ∧ _))
  | .eof => .isTrue trivial
  | .error _ => .isTrue trivial

def Connection.step (c : Connection) : Action → Option Connection
  | .nextWriteTime call => (writeStep c.client call).map fun client => { c with client }
  | .peerRead now input =>
    if peerMayRead c input.result then
      (c.peer.turn now input).map fun (peer, _) => { c with peer }
    else none
  | .clientRead input =>
    if clientMayRead c input.result then some { c with client := (c.client.turn input).1 } else none
  | .failedCalls client peer =>
    some ⟨{ c.client with errno := client }, { c.peer with errno := peer }⟩

/-- All connections of one `echo_client`, and the counter they share. -/
structure System where
  connections : List Connection
  counter : ClientCouner

def System.step (s : System) (event : Nat × Action) : Option System :=
  match s.connections[event.1]? with
  | none => none
  | some c => (c.step event.2).map fun next =>
    { connections := s.connections.set event.1 next
      counter := s.counter.decreaseBy (decreases next.client.effects - decreases c.client.effects) }

/-- What a client is given, and the descriptors of the two ends. -/
structure Setup where
  cid : UInt32
  length : UInt32
  clientFd : Int
  peerFd : Int

def Setup.connection (setup : Setup) : Connection where
  client := sender setup.cid setup.length setup.clientFd 0
  peer := ReceiverChunking.freshPeer setup.peerFd 0

def start (setups : List Setup) : System where
  connections := setups.map Setup.connection
  counter := ⟨Int32.ofNat setups.length⟩

/-! ## One connection -/

/-- What a connection's two ends know of each other. -/
structure Agreement (c : Connection) : Prop where
  sender : SenderInv c.client
  counted : c.client.client.counter = true
  flight : received c.peer.effects <+: accepted c.client.effects
  count : c.peer.peer.recvByte.toNat = (received c.peer.effects).length
  opening : c.peer.peer.firstPacket = true → received c.peer.effects = []
  header : c.peer.peer.firstPacket = false →
    c.peer.peer.clientId = c.client.client.clientId ∧
    c.peer.peer.totalByte = c.client.client.totalByte
  reply : replied c.peer.effects ≠ [] → c.peer.peer.firstPacket = false ∧
    (received c.peer.effects).length = c.client.client.totalByte.toNat
  ack : acknowledged c.client.effects <+: replied c.peer.effects
  deactive : c.client.client.deactiveSent = true → acknowledged c.client.effects ≠ []
  once : decreases c.client.effects = if c.client.client.deactiveSent then 1 else 0

private theorem Setup.agreement (setup : Setup) : Agreement setup.connection where
  sender := sender_inv setup.cid setup.length setup.clientFd 0
  counted := rfl
  flight := List.nil_prefix
  count := rfl
  opening _ := rfl
  header := by simp [Setup.connection, ReceiverChunking.freshPeer]
  reply := by simp [Setup.connection, ReceiverChunking.freshPeer, replied]
  ack := List.nil_prefix
  deactive := by simp [Setup.connection, SenderStream.sender, TcpClient.setSenderInfo]
  once := rfl

private theorem Agreement.stream (held : Agreement c) :
    received c.peer.effects <+: senderStream c.client.client := by
  have sent := held.sender.accepted
  exact held.flight.trans (sent ▸ List.take_prefix _ _)

private theorem Agreement.received_le (held : Agreement c)
    (flight : got <+: accepted c.client.effects) :
    got.length ≤ c.client.client.totalByte.toNat := by
  have length := flight.length_le
  rw [held.sender.accepted_length] at length
  exact Nat.le_trans length (UInt32.le_iff_toNat_le.mp held.sender.within)

private theorem Writes.acknowledged (writes : Writes fd before after piece) :
    EndToEnd.acknowledged after = EndToEnd.acknowledged before ∧
      decreases after = decreases before := by
  obtain ⟨calls, rfl, _, asks⟩ := writes
  have silent : EndToEnd.acknowledged calls = [] := by
    apply List.flatMap_eq_nil_iff.mpr
    intro effect member
    obtain ⟨_, _, rfl, _⟩ := asks effect member
    rfl
  have none : decreases calls = 0 := by
    apply List.count_eq_zero.mpr
    intro member
    obtain ⟨_, _, same, _⟩ := asks _ member
    cases same
  rw [acknowledged_append, decreases_append, silent, none, List.append_nil]
  exact ⟨rfl, rfl⟩

/-- A client that has made further calls keeps the agreement if it is still a sender of the same
stream and its reads and its counter call are accounted for. -/
theorem Agreement.clientMoves (held : Agreement c) (sender : SenderInv next)
    (counter : next.client.counter = c.client.client.counter)
    (clientId : next.client.clientId = c.client.client.clientId)
    (totalByte : next.client.totalByte = c.client.client.totalByte)
    (effects : next.effects = c.client.effects ++ calls)
    (ack : acknowledged next.effects <+: replied c.peer.effects)
    (deactive : next.client.deactiveSent = true → acknowledged next.effects ≠ [])
    (once : decreases next.effects = if next.client.deactiveSent then 1 else 0) :
    Agreement { c with client := next } := by
  refine ⟨sender, counter.trans held.counted, ?_, held.count, held.opening, ?_, ?_, ack, deactive,
    once⟩
  · rw [effects, accepted_append]
    exact held.flight.trans (List.prefix_append _ _)
  · rw [clientId, totalByte]
    exact held.header
  · rw [totalByte]
    exact held.reply

private theorem Agreement.write (held : Agreement c) (took : writeStep c.client call = some next) :
    Agreement { c with client := next } := by
  obtain ⟨inv, ⟨sendByte, firstSent, client⟩, ⟨piece, writes⟩, _⟩ := writeStep_spec held.sender took
  obtain ⟨acks, decs⟩ := Writes.acknowledged writes
  obtain ⟨calls, effects, _, _⟩ := writes
  refine held.clientMoves inv (by rw [client]) (by rw [client]) (by rw [client]) effects ?_ ?_ ?_
  · rw [acks]; exact held.ack
  · rw [acks, client]; exact held.deactive
  · rw [decs, client]; exact held.once

private theorem deactiveCalls_spec (client : TcpClient) :
    acknowledged (TcpClientProofs.deactiveCalls client) = [] ∧
    decreases (TcpClientProofs.deactiveCalls client) =
      (if client.deactiveSent then 0 else if client.counter then 1 else 0) := by
  unfold TcpClientProofs.deactiveCalls TcpClientProofs.infoCalls
  split
  · simp [acknowledged, decreases]
  · split <;> split <;> simp [acknowledged, decreases]

private theorem closeCalls_spec (client : TcpClient) :
    acknowledged (TcpClientProofs.closeCalls client) = [] ∧
    decreases (TcpClientProofs.closeCalls client) = 0 := by
  unfold TcpClientProofs.closeCalls TcpClientProofs.deleteCalls
  split
  · split <;> simp [acknowledged, decreases]
  · simp [acknowledged, decreases]

/-- A client that only lets go of its socket. -/
theorem Agreement.clientEnds (held : Agreement c) (sockfd : Int)
    (client : next.client = { c.client.client with sockfd })
    (effects : next.effects = c.client.effects ++ calls)
    (noReads : acknowledged calls = []) (noDecrease : decreases calls = 0)
    (noWrites : ∀ fd msg count, .write fd msg count ∉ calls) :
    Agreement { c with client := next } := by
  have acks : acknowledged next.effects = acknowledged c.client.effects := by
    rw [effects, acknowledged_append, noReads, List.append_nil]
  have sender := held.sender.frame (by rw [client]) (by rw [client]) (by rw [client])
    (by rw [client]) effects noWrites
  refine held.clientMoves sender (by rw [client]) (by rw [client]) (by rw [client]) effects ?_ ?_ ?_
  · rw [acks]; exact held.ack
  · rw [acks, client]; exact held.deactive
  · rw [effects, decreases_append, noDecrease, client]; exact held.once

private theorem Agreement.clientRead (held : Agreement c) (may : clientMayRead c input.result) :
    Agreement { c with client := (c.client.turn input).1 } := by
  rcases TcpClientProofs.turn_spec c.client input with ⟨chunk, result, client, effects⟩ | ⟨_, ends⟩
  · rw [result] at may
    obtain ⟨noReads, decs⟩ := deactiveCalls_spec c.client.client
    have noWrites := TcpClientProofs.deactiveCalls_quiet c.client.client
    have acks : acknowledged (c.client.turn input).1.effects =
        acknowledged c.client.effects ++ chunk.bytes := by
      rw [effects, acknowledged_append, ← List.singleton_append, acknowledged_append, noReads]
      simp [acknowledged]
    have sender := held.sender.frame (by rw [client]) (by rw [client]) (by rw [client])
      (by rw [client]) effects (by simpa using noWrites)
    refine held.clientMoves sender (by rw [client]) (by rw [client]) (by rw [client]) effects
      ?_ ?_ ?_
    · rw [acks]; exact may.2
    · intro _ empty
      rw [acks, List.append_eq_nil_iff] at empty
      exact absurd (List.length_pos_iff.mp chunk.nonempty) (by simp [empty.2])
    · rw [effects, decreases_append, ← List.singleton_append, decreases_append, decs, held.once,
        held.counted, client]
      cases c.client.client.deactiveSent <;> rfl
  · split at ends
    · exact held.clientEnds c.client.client.sockfd ends.1 ends.2 rfl rfl (by simp)
    · obtain ⟨noReads, noDecrease⟩ := closeCalls_spec c.client.client
      have noWrites := TcpClientProofs.closeCalls_quiet c.client.client
      exact held.clientEnds _ ends.1 ends.2 (by simpa [acknowledged] using noReads)
        (by simpa [decreases] using noDecrease) (by simpa using noWrites)

theorem traces_silent (traces : Traces effects) : received effects = [] ∧ replied effects = [] := by
  constructor
  all_goals
    apply List.flatMap_eq_nil_iff.mpr
    intro effect member
    obtain ⟨_, _, _, rfl⟩ := traces effect member
    rfl

private theorem doneCalls_received (calls : DoneCalls effects) : received effects = [] := by
  obtain ⟨written, rfl, rfl | ⟨bytes, _, _, rfl⟩⟩ := calls <;> rfl

/-- The stream as a turn that consumed data leaves it: the bytes are received,
and a reply means that the count is at the total. -/
theorem dataTurn_streams (turn : DataTurn s bytes input next) :
    received next.effects = received s.effects ++ bytes ∧
    (replied next.effects = replied s.effects ∨ next.peer.totalByte ≤ next.peer.recvByte) := by
  obtain ⟨traces, signal, effects, only, calls⟩ := turn.effects
  obtain ⟨noReads, noWrites⟩ := traces_silent only
  have quiet : received signal = [] := by
    split at calls
    · exact doneCalls_received calls
    · rw [calls]; rfl
  constructor
  · rw [effects, received_append, ← List.singleton_append, received_append, received_append,
      noReads, quiet]
    simp [received]
  · split at calls
    · rename_i complete
      exact .inr complete.2
    · refine .inl ?_
      rw [effects, calls, List.append_nil, replied_append, ← List.singleton_append, replied_append,
        noWrites]
      simp [replied]

/-- Leaving the loop moves no bytes. -/
theorem onReadEnd_streams (s : PeerState) :
    received s.onReadEnd.effects = received s.effects ∧
      replied s.onReadEnd.effects = replied s.effects := by
  unfold PeerState.onReadEnd PeerState.close
  split
  · exact ⟨rfl, rfl⟩
  · dsimp only
    split <;> simp [PeerState.emit, received, replied]

/-- What the first read of a connection tells the peer. -/
theorem Agreement.announced (held : Agreement c)
    (flight : received c.peer.effects ++ bytes <+: accepted c.client.effects)
    (fits : bytes.length ≤ kBufferSize) (first : c.peer.peer.firstPacket = true)
    (whole : 8 ≤ bytes.length) :
    TcpPeerProofs.header bytes = (some c.client.client.clientId, some c.client.client.totalByte) := by
  rw [held.opening first, List.nil_append, held.sender.accepted] at flight
  have start : announcement c.client.client.clientId c.client.client.totalByte <+:
      senderStream c.client.client := List.prefix_append _ _
  obtain ⟨tail, rfl⟩ := List.prefix_of_prefix_length_le start
    (flight.trans (List.take_prefix _ _)) (by simpa using whole)
  exact header_announcement _ _ tail fits

private theorem Agreement.peerData (held : Agreement c) (may : peerMayRead c (.data chunk))
    (turn : DataTurn c.peer chunk.bytes input next) : Agreement { c with peer := next } := by
  obtain ⟨_, flight, whole⟩ := may
  obtain ⟨got, replies⟩ := dataTurn_streams turn
  have bound := held.received_le flight
  have some_bytes := chunk.nonempty
  have small := c.client.client.totalByte.toNat_lt
  rw [List.length_append] at bound
  have count : next.peer.recvByte.toNat = (received next.effects).length := by
    rw [turn.recvByte, UInt32.toNat_add, UInt32.toNat_ofNat', held.count, got, List.length_append]
    omega
  have header : next.peer.clientId = c.client.client.clientId ∧
      next.peer.totalByte = c.client.client.totalByte := by
    rw [turn.clientId, turn.totalByte]
    cases first : c.peer.peer.firstPacket with
    | true =>
      rw [held.announced flight chunk.fits first (whole first)]
      exact ⟨rfl, rfl⟩
    | false => exact held.header first
  -- the stream holds no byte past its total, so nothing had been replied before this piece
  have silent : replied c.peer.effects = [] := by
    by_contra some_reply
    have complete := (held.reply some_reply).2
    omega
  refine ⟨held.sender, held.counted, got ▸ flight, count, ?_, fun _ => header, ?_, ?_,
    held.deactive, held.once⟩
  · simp [turn.firstPacket]
  · intro some_reply
    rcases replies with same | complete
    · exact absurd (same.trans silent) some_reply
    · refine ⟨turn.firstPacket, ?_⟩
      rw [header.2, UInt32.le_iff_toNat_le, count] at complete
      rw [got, List.length_append] at complete ⊢
      exact Nat.le_antisymm bound complete
  · have ack := held.ack
    rw [silent, List.prefix_nil] at ack
    rw [show acknowledged c.client.effects = [] from ack]
    exact List.nil_prefix

private theorem Agreement.peerRead (held : Agreement c) (may : peerMayRead c input.result)
    (ran : c.peer.turn now input = some (next, again)) : Agreement { c with peer := next } := by
  rcases turn_spec ran with ⟨chunk, result, _, turn⟩ | ⟨_, _, rfl⟩
  · exact held.peerData (result ▸ may) turn
  · obtain ⟨got, sent⟩ := onReadEnd_streams { c.peer with errno := input.result.errnoAfter c.peer.errno }
    obtain ⟨sockfd, tracRecv, peer⟩ :=
      onReadEnd_peer { c.peer with errno := input.result.errnoAfter c.peer.errno }
    refine ⟨held.sender, held.counted, ?_, ?_, ?_, ?_, ?_, ?_, held.deactive, held.once⟩
    · rw [got]; exact held.flight
    · rw [got, peer]; exact held.count
    · rw [got, peer]; exact held.opening
    · rw [peer]; exact held.header
    · rw [sent, got, peer]; exact held.reply
    · rw [sent]; exact held.ack

private theorem Agreement.step (held : Agreement c) (took : c.step action = some next) :
    Agreement next := by
  cases action with
  | nextWriteTime call =>
    obtain ⟨client, wrote, rfl⟩ := Option.map_eq_some_iff.mp took
    exact held.write wrote
  | peerRead now input =>
    rw [Connection.step, Option.ite_none_right_eq_some] at took
    obtain ⟨may, turned⟩ := took
    obtain ⟨⟨peer, again⟩, ran, rfl⟩ := Option.map_eq_some_iff.mp turned
    exact held.peerRead may ran
  | clientRead input =>
    rw [Connection.step, Option.ite_none_right_eq_some] at took
    obtain ⟨may, same⟩ := took
    cases same
    exact held.clientRead may
  | failedCalls client peer =>
    cases took
    have same : c.client.effects = c.client.effects ++ [] := (List.append_nil _).symm
    exact ⟨held.sender.frame rfl rfl rfl rfl same (by simp), held.counted,
      held.flight, held.count, held.opening, held.header, held.reply, held.ack, held.deactive,
      held.once⟩

/-- What no step of a connection changes, and what none takes back. -/
theorem step_client (held : Agreement c) (took : Connection.step c action = some next) :
    next.client.client.clientId = c.client.client.clientId ∧
    next.client.client.totalByte = c.client.client.totalByte ∧
    (c.client.client.deactiveSent = true → next.client.client.deactiveSent = true) := by
  cases action with
  | nextWriteTime call =>
    obtain ⟨client, wrote, rfl⟩ := Option.map_eq_some_iff.mp took
    obtain ⟨_, ⟨_, _, shape⟩, _, _⟩ := writeStep_spec held.sender wrote
    rw [shape]
    exact ⟨rfl, rfl, id⟩
  | peerRead now input =>
    rw [Connection.step, Option.ite_none_right_eq_some] at took
    obtain ⟨_, _, rfl⟩ := Option.map_eq_some_iff.mp took.2
    exact ⟨rfl, rfl, id⟩
  | clientRead input =>
    rw [Connection.step, Option.ite_none_right_eq_some] at took
    cases took.2
    rcases TcpClientProofs.turn_spec c.client input with ⟨_, _, client, _⟩ | ⟨_, ends⟩
    · rw [client]
      exact ⟨rfl, rfl, fun _ => rfl⟩
    · split at ends <;> rw [ends.1] <;> exact ⟨rfl, rfl, id⟩
  | failedCalls client peer =>
    cases took
    exact ⟨rfl, rfl, id⟩

/-! ## All connections and their counter -/

/-- The clients that have deactivated. -/
def deactivated (connections : List Connection) : Nat :=
  connections.countP (·.client.client.deactiveSent)

structure Consistent (setups : List Setup) (s : System) : Prop where
  connections : ∀ c ∈ s.connections, Agreement c
  clients : s.connections.map (fun c => (c.client.client.clientId, c.client.client.totalByte)) =
    setups.map fun setup =>
      (setup.cid, if setup.length < 1400 then 1400 else setup.length)
  counter : s.counter = (start setups).counter.decreaseBy (deactivated s.connections)

private theorem start_consistent (setups : List Setup) : Consistent setups (start setups) := by
  refine ⟨?_, ?_, ?_⟩
  · intro c member
    obtain ⟨setup, _, rfl⟩ := List.mem_map.mp member
    exact setup.agreement
  · simp only [start, List.map_map]
    rfl
  · have none : deactivated (start setups).connections = 0 := by
      apply List.countP_eq_zero.mpr
      intro c member
      obtain ⟨setup, _, rfl⟩ := List.mem_map.mp member
      simp [Setup.connection, sender, TcpClient.setSenderInfo]
    rw [none]
    rfl

private theorem Consistent.step (held : Consistent setups s)
    (took : System.step s event = some next) : Consistent setups next := by
  unfold System.step at took
  split at took
  · cases took
  · rename_i c found
    obtain ⟨after, moved, rfl⟩ := Option.map_eq_some_iff.mp took
    obtain ⟨inside, same⟩ := List.getElem?_eq_some_iff.mp found
    have before := held.connections c (same ▸ List.getElem_mem inside)
    have agreed := before.step moved
    obtain ⟨clientId, totalByte, keeps⟩ := step_client before moved
    refine ⟨?_, ?_, ?_⟩
    · intro other member
      rcases List.mem_or_eq_of_mem_set member with old | rfl
      · exact held.connections other old
      · exact agreed
    · rw [List.map_set, clientId, totalByte, ← held.clients, ← same]
      have unchanged := List.set_getElem_self (show event.1 < (s.connections.map fun c =>
        (c.client.client.clientId, c.client.client.totalByte)).length by simpa using inside)
      rwa [List.getElem_map] at unchanged
    · rw [held.counter, Couner.decreaseBy_decreaseBy, before.once, agreed.once, deactivated,
        deactivated, List.countP_set inside, same]
      cases was : c.client.client.deactiveSent with
      | false => simp
      | true =>
        have counted : 0 < s.connections.countP (·.client.client.deactiveSent) :=
          List.countP_pos_iff.mpr ⟨c, same ▸ List.getElem_mem inside, was⟩
        rw [keeps was, if_pos rfl, Nat.sub_self, Nat.add_zero, Nat.sub_add_cancel counted]

/-- A client that has deactivated has a peer that read all of its stream. -/
theorem Agreement.complete (held : Agreement c) (done : c.client.client.deactiveSent = true) :
    c.peer.peer.clientId = c.client.client.clientId ∧
    c.peer.peer.totalByte = c.client.client.totalByte ∧
    c.peer.peer.recvByte = c.client.client.totalByte ∧
    received c.peer.effects = senderStream c.client.client := by
  have some_reply : replied c.peer.effects ≠ [] := by
    intro silent
    have ack := held.ack
    rw [silent, List.prefix_nil] at ack
    exact held.deactive done ack
  obtain ⟨opened, all⟩ := held.reply some_reply
  obtain ⟨clientId, totalByte⟩ := held.header opened
  refine ⟨clientId, totalByte, ?_, ?_⟩
  · rw [← UInt32.toNat_inj, held.count, all]
  · apply held.stream.eq_of_length
    rw [all, senderStream_length _ held.sender.large]

private theorem Consistent.all_complete (held : Consistent setups s) (few : setups.length < 2 ^ 31)
    (done : s.counter.isAllDeactive = true) :
    ∀ c ∈ s.connections, c.client.client.deactiveSent = true := by
  rw [held.counter] at done
  have enough := Couner.isAllDeactive_decreaseBy _ _ done
  rw [start, Int32.toInt_ofNat_of_lt few] at enough
  have length := congrArg List.length held.clients
  rw [List.length_map, List.length_map] at length
  have most : deactivated s.connections ≤ s.connections.length := List.countP_le_length
  have all : deactivated s.connections = s.connections.length := by omega
  exact List.countP_eq_length.mp all

/-- In every run, a client counts itself off at most once and only when its peer
holds its id and total and has received all of its stream; so the counter reads
as done only when every stream has been received. -/
theorem completion_agreement (setups : List Setup) (few : setups.length < 2 ^ 31)
    (events : List (Nat × Action)) (s : System)
    (ran : run System.step (start setups) events = some s) :
    s.connections.map (fun c => (c.client.client.clientId, c.client.client.totalByte)) =
      setups.map (fun setup => (setup.cid, if setup.length < 1400 then 1400 else setup.length)) ∧
    (∀ c ∈ s.connections, decreases c.client.effects ≤ 1 ∧
      (.decrease ∈ c.client.effects →
        c.peer.peer.clientId = c.client.client.clientId ∧
        c.peer.peer.totalByte = c.client.client.totalByte ∧
        (received c.peer.effects).length = c.client.client.totalByte.toNat ∧
        c.peer.peer.recvByte = c.client.client.totalByte)) ∧
    (s.counter.isAllDeactive = true →
      ∀ c ∈ s.connections, received c.peer.effects = senderStream c.client.client) := by
  have held : Consistent setups s := run_invariant (start_consistent setups)
    (fun _ _ _ before took => before.step took) ran
  refine ⟨held.clients, ?_, ?_⟩
  · intro c member
    have agreed := held.connections c member
    have once := agreed.once
    refine ⟨by rw [once]; split <;> decide, fun counted => ?_⟩
    have positive : 0 < decreases c.client.effects := List.count_pos_iff.mpr counted
    have done : c.client.client.deactiveSent = true := by
      by_contra active
      rw [once, if_neg active] at positive
      exact Nat.lt_irrefl 0 positive
    obtain ⟨clientId, totalByte, recvByte, all⟩ := agreed.complete done
    exact ⟨clientId, totalByte, by rw [all, senderStream_length _ agreed.sender.large], recvByte⟩
  · intro done c member
    exact ((held.connections c member).complete (held.all_complete few done c member)).2.2.2

/-- A whole line, as one `read` returns it. -/
def line (client : TcpClient) : Chunk kBufferSize where
  bytes := ClientState.firstPacket client
  nonempty := by rw [firstPacket_length]; decide
  fits := by rw [firstPacket_length]; decide

/-- One client with one line to send, from its first write to its deactivation. -/
def singleLine : List (Nat × Action) :=
  [(0, .nextWriteTime ⟨[.accepted 1400], 3⟩),
   (0, .peerRead 0 ⟨.data (line { clientId := 7, totalByte := 1400 }), 0, 0, .accepted 14⟩),
   (0, .clientRead ⟨.data ⟨doneMsg ++ [0], by simp, by simp [doneMsg_length, maxLine]⟩, none⟩)]

theorem single_line_completes :
    ∃ s, run System.step (start [⟨7, 100, 5, 6⟩]) singleLine = some s ∧
      s.counter.isAllDeactive = true ∧
      ∀ c ∈ s.connections, received c.peer.effects = senderStream c.client.client := by
  have evaluated : (run System.step (start [⟨7, 100, 5, 6⟩]) singleLine).map
      (·.counter.isAllDeactive) = some true := by decide +kernel
  obtain ⟨s, ran, done⟩ := Option.map_eq_some_iff.mp evaluated
  exact ⟨s, ran, done, (completion_agreement _ (by decide) _ s ran).2.2 done⟩

end TcpCongestion.EndToEnd
