import TcpCongestion.ByteCodec
import TcpCongestion.Posix

/-! `tcp/tcp_client.cc`: the sending end of one connection. A method records
every call it makes on the kernel, the event loop, the task queue and the
counter, with the descriptor it made it on. `none` is a failed `CHECK`. -/
namespace TcpCongestion
open Posix ByteCodec

def maxLine : Nat := 1400
def kPacketBatchSize : Nat := 10
def logInterval : UInt32 := 5000

/-- The fields of `TcpClient` its methods decide on; `counter` says that the
counter pointer is set. -/
structure TcpClient where
  clientId : UInt32 := 0
  counter : Bool := true
  sockfd : Int := -1
  asyconnect : Bool := false
  connected : Bool := false
  firstSent : Bool := false
  recvAck : Bool := false
  sendByte : UInt32 := 0
  totalByte : UInt32 := 0
  deactiveSent : Bool := false
  readEventRegisted : Bool := false
  deriving DecidableEq, Repr

/-- The closures a client posts to its `NetworkThread`. -/
inductive ClientTask where
  | notifiConnect
  | stopUseOnce
  | logTcpInfoEvent
  deriving DecidableEq, Repr

inductive ClientEffect where
  | socket (fd : Int)
  | bind (fd : Int)
  | setCongestionAlgo (fd : Int)
  | startThread
  | connect (fd : Int)
  | postTask (task : ClientTask)
  | postDelayedTask (task : ClientTask) (delay : UInt32)
  | createTimeEvent
  | createFileEvent (fd : Int) (created : Bool)
  | deleteFileEvent (fd : Int)
  | read (fd : Int) (bytes : List UInt8)
  | write (fd : Int) (msg : List UInt8) (accepted : Nat)
  | getsockopt (fd : Int)
  | close (fd : Int)
  | decrease
  deriving DecidableEq, Repr

structure ClientState where
  client : TcpClient
  errno : Errno
  effects : List ClientEffect
  deriving DecidableEq, Repr

/-- What the environment supplies to one turn of the read loop: the answer of
`read`, and of `getsockopt` if it comes to that, `none` for success. -/
structure ClientInput where
  result : ReadResult maxLine
  info : Option Errno

/-- `SetSenderInfo`, without the log file it opens. -/
def TcpClient.setSenderInfo (client : TcpClient) (cid length : UInt32) : TcpClient :=
  let length := if length < 1400 then 1400 else length
  { client with clientId := cid, totalByte := length }

/-- `IncreaseWriteBytes`. -/
def TcpClient.increaseWriteBytes (client : TcpClient) (size : Nat) : TcpClient :=
  { client with sendByte := client.sendByte + UInt32.ofNat size }

/-- `GetBatchSize`: `int remain` takes the unsigned difference as signed. -/
def TcpClient.getBatchSize (client : TcpClient) : Int :=
  let maxBatch : Int := kPacketBatchSize * maxLine
  let remain := (client.totalByte - client.sendByte).toInt32.toInt
  min maxBatch remain

namespace ClientState

def emit (s : ClientState) (effect : ClientEffect) : ClientState :=
  { s with effects := s.effects ++ [effect] }

/-- `SetCongestionAlgo`, with the answer of `setsockopt`, `none` for success. -/
def setCongestionAlgo (s : ClientState) (algo : Option Errno) : ClientState :=
  { s.emit (.setCongestionAlgo s.client.sockfd) with errno := algo.getD s.errno }

/-- `Bind`: what `socket` answered, whether the local address parses, and the answers of `bind`
and `setsockopt`, which only leave their mark on `errno`. -/
def bind (s : ClientState) (answer : Except Errno Int) (parses : Bool)
    (bound algo : Option Errno) : ClientState :=
  match answer with
  | .error errno => { s with client := { s.client with sockfd := -1 }, errno }
  | .ok fd =>
    let s := { s.emit (.socket fd) with client := { s.client with sockfd := fd } }
    if parses then
      { s.emit (.bind fd) with errno := bound.getD s.errno }.setCongestionAlgo algo
    else s

/-- `AsynConnect`. -/
def asynConnect (s : ClientState) : ClientState :=
  if s.client.sockfd > 0 then
    { s.emit .startThread with client := { s.client with asyconnect := true } }
  else s

/-- `StopConectionThread`. -/
def stopConectionThread (s : ClientState) : ClientState :=
  if s.client.asyconnect then
    { s with client := { s.client with asyconnect := false } }.emit (.postTask .stopUseOnce)
  else s

/-- `SynConnect`, with the answer of `connect`. -/
def synConnect (s : ClientState) (answer : Except Errno Unit) : ClientState :=
  if s.client.sockfd < 0 then s.stopConectionThread
  else
    let s := s.emit (.connect s.client.sockfd)
    let s := match answer with
      | .error errno => { s with errno }
      | .ok () => { s with client := { s.client with connected := true } }
    (s.emit (.postTask .notifiConnect)).stopConectionThread

/-- `UpdateTcpInfo` up to the statistics it logs. -/
def updateTcpInfo (s : ClientState) (info : Option Errno) : ClientState :=
  if s.client.sockfd < 0 then s
  else { s.emit (.getsockopt s.client.sockfd) with errno := info.getD s.errno }

/-- `LogTcpInfoEvent`. -/
def logTcpInfoEvent (s : ClientState) (info : Option Errno) : ClientState :=
  let s := s.updateTcpInfo info
  if s.client.deactiveSent then s
  else s.emit (.postDelayedTask .logTcpInfoEvent logInterval)

/-- `NotifiConnect`, with the answer of `aeCreateFileEvent`. -/
def notifiConnect (s : ClientState) (created : Bool) (info : Option Errno) : ClientState :=
  let s := if s.client.connected then
      let s := (s.emit .createTimeEvent).emit (.createFileEvent s.client.sockfd created)
      if created then s else s.emit (.close s.client.sockfd)
    else s
  s.logTcpInfoEvent info

/-- `DeleteReadEvent`. -/
def deleteReadEvent (s : ClientState) : ClientState :=
  if s.client.readEventRegisted then
    if s.client.sockfd > 0 then s.emit (.deleteFileEvent s.client.sockfd) else s
  else s

/-- `Close`, which is also the destructor. -/
def close (s : ClientState) (info : Option Errno) : ClientState :=
  if s.client.sockfd > 0 then
    let s := s.deleteReadEvent.updateTcpInfo info
    { s.emit (.close s.client.sockfd) with client := { s.client with sockfd := 0 } }
  else s

/-- `NotifiDeactiveMsg`. -/
def notifiDeactiveMsg (s : ClientState) (info : Option Errno) : ClientState :=
  if s.client.deactiveSent then s
  else
    let s := if s.client.counter then s.emit .decrease else s
    { s with client := { s.client with deactiveSent := true } }.logTcpInfoEvent info

/-- The body of the read loop after a `read` that returned data. -/
def onData (s : ClientState) (info : Option Errno) : ClientState :=
  let s := { s with client := { s.client with recvAck := true } }
  s.notifiDeactiveMsg info

/-- The exit of the read loop, with `errno` as `read` left it. -/
def onReadEnd (s : ClientState) (info : Option Errno) : ClientState :=
  if wouldBlock s.errno then s else s.close info

/-- One turn of the loop in `NotifiRead`, and whether it goes round again. -/
def turn (s : ClientState) (input : ClientInput) : ClientState × Bool :=
  match input.result with
  | .data chunk => ((s.emit (.read s.client.sockfd chunk.bytes)).onData input.info, true)
  | result =>
    let s := s.emit (.read s.client.sockfd [])
    ({ s with errno := result.errnoAfter s.errno }.onReadEnd input.info, false)

/-- `NotifiRead`, as far as the given answers of `read` take it. -/
def notifiRead : ClientState → List ClientInput → ClientState
  | s, [] => s
  | s, input :: rest =>
    match s.turn input with
    | (next, false) => next
    | (next, true) => notifiRead next rest

/-- `WriteMessage`, and the length it returns. -/
def writeMessage (s : ClientState) (msg : List UInt8) (result : WriteResult) :
    Option (ClientState × Nat) :=
  if s.client.sockfd ≤ 0 then some (s, 0)
  else
    let accepted := result.count msg.length
    let s := s.emit (.write s.client.sockfd msg accepted)
    if accepted = 0 then
      let errno := result.errnoAfter s.errno
      if wouldBlock errno then some ({ s with errno }, 0) else none
    else some (s, accepted)

/-- `WritePacketInBatch`, and the total it returns. A loop that outlives the
given answers finds the socket full. -/
def writePacketInBatch (s : ClientState) (remain : Nat) : List WriteResult →
    Option (ClientState × Nat)
  | [] =>
    if remain = 0 then some (s, 0)
    else s.writeMessage (List.replicate (min remain maxLine) 0) (.error EAGAIN)
  | result :: rest =>
    if remain = 0 then some (s, 0)
    else match s.writeMessage (List.replicate (min remain maxLine) 0) result with
      | none => none
      | some (s, 0) => some (s, 0)
      | some (s, ret) =>
        (s.writePacketInBatch (remain - ret) rest).map fun (s, total) => (s, ret + total)

/-- The batch at the end of both branches of `NextWriteTime`. A negative batch
size fails `remain > 0` at once, as zero does. -/
def writeBatch (s : ClientState) (script : List WriteResult) : Option ClientState :=
  (s.writePacketInBatch s.client.getBatchSize.toNat script).map fun (s, write) =>
    { s with client := s.client.increaseWriteBytes write }

theorem line_room : (1400 : UInt32).toNat ≤ (List.replicate maxLine (0 : UInt8)).length := by
  rw [List.length_replicate]
  decide

/-- The buffer of the first packet, as the `DataWriter` leaves it. -/
def firstPacket (client : TcpClient) : List UInt8 :=
  let writer := DataWriter.create (List.replicate maxLine 0) 1400 .networkOrder line_room
  let writer := (writer.writeUInt32 client.clientId).2
  let writer := (writer.writeUInt32 client.totalByte).2
  writer.buf

/-- `NextWriteTime`: what the socket answers to its writes, and the number
`random_.nextInt(0, 10)` gives. -/
def nextWriteTime (s : ClientState) (script : List WriteResult) (nextTimems : Int) :
    Option (ClientState × Int) :=
  if s.client.sockfd ≤ 0 then some (s, 0)
  else if s.client.getBatchSize = 0 then some (s, 0)
  else if s.client.firstSent then (s.writeBatch script).map (·, nextTimems)
  else match s.writeMessage (firstPacket s.client) (script.head?.getD (.error EAGAIN)) with
    | none => none
    | some (s, ret) =>
      if ret = maxLine then
        let client := { s.client.increaseWriteBytes ret with firstSent := true }
        ({ s with client }.writeBatch script.tail).map (·, nextTimems)
      else none

end ClientState

end TcpCongestion
