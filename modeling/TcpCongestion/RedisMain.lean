import TcpCongestion.ByteCodec
import TcpCongestion.Posix

/-! `redis-main.cc`: the server without classes. All that it knows about a transfer is in
file-level variables, so a callback takes them, the descriptors that are open and what the
environment answers, and records its calls in order. -/
namespace TcpCongestion.Redis
open Posix ByteCodec

def kBufferLen : Nat := 1500
def kLogInterval : Int64 := 5000

/-- `done_msg`, without the terminating NUL. -/
def doneMsg : List UInt8 := "read done".toList.map fun c => UInt8.ofNat c.toNat

/-- The file-level variables, as the program starts with them. -/
structure Globals where
  clientId : Int32 := 0
  bytesTotal : Int32 := 0
  bytesRead : Int32 := 0
  firstPacket : Bool := true
  nextLogTime : Int32 := 0
  deriving DecidableEq

/-- What the server does to its surroundings, one entry a call. -/
inductive Effect where
  | read (fd : Int) (bytes : List UInt8)
  | onRecvData (id : Int32) (now : Int64) (bytes : Int32)
  | sendReadDone (fd : Int)
  | write (fd : Int) (accepted : List UInt8)
  | clientClose (fd : Int) (err : Int)
  | deleteFileEvent (fd : Int)
  | close (fd : Int)
  | createFileEvent (fd : Int) (created : Bool)
  deriving DecidableEq

structure State where
  globals : Globals
  errno : Errno
  opened : List Int
  effects : List Effect
  deriving DecidableEq

/-- What the environment supplies to one turn of the read loop: the answer of `read` while the
descriptor is open, whatever the uninitialised locals `first` and `second` hold, and the answer
of the `write` in `SendReadDone` if it comes to that. -/
structure Input where
  result : ReadResult kBufferLen
  first : UInt32
  second : UInt32
  write : WriteResult

namespace State

def emit (s : State) (effect : Effect) : State := { s with effects := s.effects ++ [effect] }

def logReadBytes (s : State) (now : Int64) : State :=
  s.emit (.onRecvData s.globals.clientId now s.globals.bytesRead)

def sendReadDone (s : State) (fd : Int) (result : WriteResult) : State :=
  let s := s.emit (.sendReadDone fd)
  let buffer := doneMsg ++ List.replicate (kBufferLen - doneMsg.length) 0
  let s := s.emit (.write fd (buffer.take (result.count (doneMsg.length + 1))))
  { s with errno := result.errnoAfter s.errno }

/-- The second `close` of a descriptor fails. -/
def clientClose (s : State) (fd : Int) (err : Int) : State :=
  let s := ((s.emit (.clientClose fd err)).emit (.deleteFileEvent fd)).emit (.close fd)
  { s with
    errno := if fd ∈ s.opened then s.errno else EBADF
    opened := s.opened.filter (· ≠ fd) }

/-- The header branch of `ReadFromClient`. A failing `ReadUInt32` leaves its local as it was. -/
def readFirstPacket (s : State) (now : Int64) (bytes : List UInt8) (input : Input) : State :=
  let reader := DataReader.create bytes (UInt32.ofNat bytes.length) .networkOrder
  let (first, reader) := reader.readUInt32
  let (second, _) := reader.readUInt32
  let s := { s with globals := { s.globals with
    clientId := (first.getD input.first).toInt32
    bytesTotal := (second.getD input.second).toInt32 } }
  let s := s.logReadBytes now
  { s with globals := { s.globals with
    nextLogTime := (now + kLogInterval).toInt32
    firstPacket := false } }

def readHeader (s : State) (now : Int64) (bytes : List UInt8) (input : Input) : State :=
  if s.globals.firstPacket then s.readFirstPacket now bytes input else s

/-- `BytesRead+=res`, which wraps. -/
def countBytes (s : State) (bytes : List UInt8) : State :=
  { s with globals := { s.globals with
    bytesRead := s.globals.bytesRead + Int32.ofNat bytes.length } }

def logInterval (s : State) (now : Int64) : State :=
  if now > s.globals.nextLogTime.toInt64 then
    let s := s.logReadBytes now
    { s with globals := { s.globals with nextLogTime := (now + kLogInterval).toInt32 } }
  else s

/-- The completion branch; the loop goes on reading the descriptor it closes. -/
def checkDone (s : State) (fd : Int) (res : Nat) (result : WriteResult) : State :=
  if s.globals.bytesRead ≥ s.globals.bytesTotal then
    (s.sendReadDone fd result).clientClose fd res
  else s

/-- The body of the loop after a `read` that returned data. -/
def onData (s : State) (fd : Int) (now : Int64) (bytes : List UInt8) (input : Input) : State :=
  let s := (s.emit (.read fd bytes)).readHeader now bytes input
  ((s.countBytes bytes).logInterval now).checkDone fd bytes.length input.write

/-- The exit of the loop, `res` being what `read` returned. -/
def onReadEnd (s : State) (fd : Int) (res : Int) : State :=
  if wouldBlock s.errno then s else s.clientClose fd res

/-- One turn of the loop, and whether it goes round again. -/
def turn (s : State) (fd : Int) (now : Int64) (input : Input) : State × Bool :=
  match if fd ∈ s.opened then input.result else .error EBADF with
  | .data chunk => (s.onData fd now chunk.bytes input, true)
  | .eof => (s.onReadEnd fd 0, false)
  | .error errno => ({ s with errno }.onReadEnd fd (-1), false)

/-- `ReadFromClient`, as far as the given answers of `read` take it. -/
def readFromClient (fd : Int) (now : Int64) : State → List Input → State
  | s, [] => s
  | s, input :: rest =>
    match s.turn fd now input with
    | (next, false) => next
    | (next, true) => readFromClient fd now next rest

/-- `AcceptTcpHandler` on the listening descriptor `fd`, once `accept` has returned `cfd`;
`created` is the answer of `aeCreateFileEvent`. -/
def acceptTcpHandler (s : State) (fd cfd : Int) (created : Bool) : State :=
  let s := { s with opened := cfd :: s.opened }.emit (.createFileEvent cfd created)
  if created then s
  else { s.emit (.close fd) with opened := s.opened.filter (· ≠ fd) }

end State

end TcpCongestion.Redis
