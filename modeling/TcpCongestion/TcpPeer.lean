import TcpCongestion.ByteCodec
import TcpCongestion.Posix

/-! `tcp/tcp_peer.cc`: the server's end of one connection. A method takes the
peer, the process's `errno` and what the environment answers, and records the
calls it makes on the kernel and on its server in the order it makes them.
`none` is a failed `CHECK`, which ends the process. -/
namespace TcpCongestion
open Posix ByteCodec

def kBufferSize : Nat := 1500
def klogInterval : Int32 := 5000

/-- `done_msg`, without the terminating NUL. -/
def doneMsg : List UInt8 := "read all done".toList.map fun c => UInt8.ofNat c.toNat

/-- The fields of `TcpPeer`; `tracRecv` says that the callback is set. -/
structure TcpPeer where
  sockfd : Int
  firstPacket : Bool := true
  clientId : UInt32 := 0
  recvByte : UInt32 := 0
  totalByte : UInt32 := 0
  tracRecv : Bool := false
  nextTimePrintLog : UInt32 := 0
  sendReadDone : Bool := false
  deriving DecidableEq, Repr

/-- What a peer does to its surroundings, one entry a call. -/
inductive PeerEffect where
  | read (bytes : List UInt8)
  | onTraceData (id ts len : UInt32)
  | sendDoneSignal
  | write (accepted : List UInt8)
  | onPeerReadDoneMsg
  | peerClose (fd : Int)
  | close (fd : Int)
  deriving DecidableEq, Repr

structure PeerState where
  peer : TcpPeer
  errno : Errno
  effects : List PeerEffect
  deriving DecidableEq, Repr

/-- What the environment supplies to one turn of the read loop: the answer of
`read`, whatever the uninitialised locals `first` and `second` hold, and the
answer of the `write` in `SendDoneSignal` if it comes to that. -/
structure PeerInput where
  result : ReadResult kBufferSize
  first : UInt32
  second : UInt32
  write : WriteResult

namespace PeerState

def emit (s : PeerState) (effect : PeerEffect) : PeerState :=
  { s with effects := s.effects ++ [effect] }

/-- `TcpPeer::ReportRecvLength`. -/
def reportRecvLength (s : PeerState) (now : UInt32) : PeerState :=
  if s.peer.tracRecv then s.emit (.onTraceData s.peer.clientId now s.peer.recvByte) else s

/-- `TcpPeer::Close`. -/
def close (s : PeerState) : PeerState :=
  let s := if s.peer.sockfd > 0 then
      { s.emit (.close s.peer.sockfd) with peer := { s.peer with sockfd := 0 } }
    else s
  { s with peer := { s.peer with tracRecv := false } }

/-- `TcpPeer::WriteMessage`, whose result no caller uses. -/
def writeMessage (s : PeerState) (msg : List UInt8) (len : Nat) (result : WriteResult) :
    Option PeerState :=
  if s.peer.sockfd ≤ 0 then some s
  else if result.count len = 0 then
    let errno := result.errnoAfter s.errno
    if wouldBlock errno then some { s with errno } else none
  else some (s.emit (.write (msg.take (result.count len))))

/-- `TcpPeer::SendDoneSignal`. -/
def sendDoneSignal (s : PeerState) (result : WriteResult) : Option PeerState :=
  let buffer := doneMsg ++ List.replicate (kBufferSize - doneMsg.length) 0
  (s.emit .sendDoneSignal).writeMessage buffer (doneMsg.length + 1) result

/-- The header branch of `NotifiRead`. A failing `ReadUInt32` leaves its local
as it was. -/
def readFirstPacket (s : PeerState) (now : Int32) (bytes : List UInt8) (input : PeerInput) :
    PeerState :=
  let reader := DataReader.create bytes (UInt32.ofNat bytes.length) .networkOrder
  let (first, reader) := reader.readUInt32
  let (second, _) := reader.readUInt32
  let s := { s with peer := { s.peer with
    clientId := first.getD input.first
    totalByte := second.getD input.second } }
  let s := s.reportRecvLength now.toUInt32
  { s with peer := { s.peer with
    nextTimePrintLog := (now + klogInterval).toUInt32
    firstPacket := false } }

def readHeader (s : PeerState) (now : Int32) (bytes : List UInt8) (input : PeerInput) : PeerState :=
  if s.peer.firstPacket then s.readFirstPacket now bytes input else s

/-- `recvByte_ += res`. -/
def countBytes (s : PeerState) (bytes : List UInt8) : PeerState :=
  { s with peer := { s.peer with recvByte := s.peer.recvByte + UInt32.ofNat bytes.length } }

/-- The interval branch of `NotifiRead`; `now` is compared as unsigned. -/
def reportInterval (s : PeerState) (now : Int32) : PeerState :=
  if now.toUInt32 ≥ s.peer.nextTimePrintLog then
    let s := s.reportRecvLength now.toUInt32
    { s with peer := { s.peer with nextTimePrintLog := (now + klogInterval).toUInt32 } }
  else s

/-- The completion branch of `NotifiRead`. -/
def checkDone (s : PeerState) (now : Int32) (result : WriteResult) : Option PeerState :=
  if s.peer.recvByte ≥ s.peer.totalByte then
    let s := s.reportRecvLength now.toUInt32
    if s.peer.sendReadDone then some s
    else (s.sendDoneSignal result).map fun s =>
      let s := s.emit .onPeerReadDoneMsg
      { s with peer := { s.peer with sendReadDone := true } }
  else some s

/-- The body of the loop after a `read` that returned data. -/
def onData (s : PeerState) (now : Int32) (bytes : List UInt8) (input : PeerInput) :
    Option PeerState :=
  let s := (s.emit (.read bytes)).readHeader now bytes input
  ((s.countBytes bytes).reportInterval now).checkDone now input.write

/-- The exit of the loop, with `errno` as `read` left it. -/
def onReadEnd (s : PeerState) : PeerState :=
  if wouldBlock s.errno then s else (s.emit (.peerClose s.peer.sockfd)).close

/-- One turn of the loop, and whether it goes round again. -/
def turn (s : PeerState) (now : Int32) (input : PeerInput) : Option (PeerState × Bool) :=
  match input.result with
  | .data chunk => (s.onData now chunk.bytes input).map (·, true)
  | result => some ({ s with errno := result.errnoAfter s.errno }.onReadEnd, false)

/-- `TcpPeer::NotifiRead`, as far as the given answers of `read` take it: the
callback has returned once an answer without data was among them. -/
def notifiRead (now : Int32) : PeerState → List PeerInput → Option PeerState
  | s, [] => some s
  | s, input :: rest =>
    match s.turn now input with
    | none => none
    | some (next, false) => some next
    | some (next, true) => notifiRead now next rest

end PeerState

end TcpCongestion
