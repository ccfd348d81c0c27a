import TcpCongestion.Counters
import TcpCongestion.EventLoop
import TcpCongestion.TcpPeer

/-! `tcp/tcp_server.cc`: the server with its event loop, the peers it owns and
the part of the kernel they rely on. Peers are known by the position at which
they were constructed, as the code knows them by address; `alive` turns false
where the last `shared_ptr` to one goes. -/
namespace TcpCongestion
open Posix

def FD_SETSIZE : Int := 1024

/-- Who a registered descriptor calls back. -/
inductive Handler where
  | acceptTcp
  | peer (index : Nat)
  deriving DecidableEq, Repr

structure PeerObject where
  peer : TcpPeer
  effects : List PeerEffect
  alive : Bool
  deriving DecidableEq, Repr

/-- The members of `TcpServer`, with every peer ever made, the descriptors the
process has open, and `errno`. The only time events are `DeletePeerTimer`s. -/
structure TcpServer where
  evb : EventLoop Handler Unit
  objects : List PeerObject
  peers : Int → Option Nat
  waitForDelele : List Nat
  counter : Option PeerCouner
  errno : Errno
  opened : List Int

namespace TcpServer

/-- `PeerClose`. -/
def peerClose (s : TcpServer) (fd : Int) : TcpServer :=
  match s.peers fd with
  | none => s
  | some p => { s with
    waitForDelele := s.waitForDelele ++ [p]
    peers := Function.update s.peers fd none
    evb := s.evb.aeCreateTimeEvent () }

/-- `OnPeerReadDoneMsg`. -/
def onPeerReadDoneMsg (s : TcpServer) : TcpServer :=
  { s with counter := s.counter.map Couner.decrease }

/-- The system call `close`. -/
def closeDescriptor (s : TcpServer) (fd : Int) : TcpServer :=
  { s with
    opened := s.opened.filter (· ≠ fd)
    evb := s.evb.closed fd }

/-- What a call of a peer does outside of the peer. -/
def perform (s : TcpServer) : PeerEffect → TcpServer
  | .peerClose fd => s.peerClose fd
  | .onPeerReadDoneMsg => s.onPeerReadDoneMsg
  | .close fd => s.closeDescriptor fd
  | _ => s

def stateOf (s : TcpServer) (object : PeerObject) : PeerState where
  peer := object.peer
  errno := s.errno
  effects := object.effects

/-- A method of peer `p` has run, from `object` to `after`. -/
def commit (s : TcpServer) (p : Nat) (object : PeerObject) (after : PeerState) : TcpServer :=
  let s := { s with
    objects := s.objects.set p { object with peer := after.peer, effects := after.effects }
    errno := after.errno }
  (after.effects.drop object.effects.length).foldl perform s

/-- The destructor of peer `p`, once nothing owns it any more. -/
def destroy (s : TcpServer) (p : Nat) : TcpServer :=
  match s.objects[p]? with
  | none => s
  | some object => s.commit p { object with alive := false } (s.stateOf object).close

/-- The constructor of `TcpPeer`. -/
def newPeer (s : TcpServer) (fd : Int) : TcpServer :=
  let p := s.objects.length
  let object : PeerObject := { peer := { sockfd := fd }, effects := [], alive := true }
  match s.evb.aeCreateFileEvent fd AE_READABLE (.peer p) with
  | .ok evb => { s with evb, objects := s.objects ++ [object] }
  | .error errno =>
    let s := { s with errno, objects := s.objects ++ [object] }
    s.commit p object (s.stateOf object).close

/-- `SetTraceRecvFun`. -/
def setTraceRecvFun (s : TcpServer) (p : Nat) : TcpServer :=
  { s with objects := s.objects.modify p fun object =>
    { object with peer := { object.peer with tracRecv := true } } }

/-- `peers_.insert`, which keeps what it finds, and the end of the local
`shared_ptr`. -/
def insertPeer (s : TcpServer) (fd : Int) (p : Nat) : TcpServer :=
  match s.peers fd with
  | none => { s with peers := Function.update s.peers fd (some p) }
  | some _ => s.destroy p

/-- `Accept`, with the answer of the system call. -/
def accept (s : TcpServer) : Except Errno Int → TcpServer
  | .error errno => { s with errno }
  | .ok fd =>
    let s := { s with opened := fd :: s.opened }
    if fd > FD_SETSIZE then s
    else
      let p := s.objects.length
      ((s.newPeer fd).setTraceRecvFun p).insertPeer fd p

/-- `DeletePeerList`. -/
def deletePeerList (s : TcpServer) : TcpServer :=
  { s.waitForDelele.foldl destroy s with waitForDelele := [] }

/-- `DeletePeerTimer`, and the result it returns. -/
def deletePeerTimer (s : TcpServer) : TcpServer × Int := (s.deletePeerList, 0)

/-- One turn of the read loop in the callback of `fd`. There is none unless the
kernel reports the descriptor and its table entry names a living peer. -/
def readable (s : TcpServer) (fd : Int) (now : Int32) (input : PeerInput) : Option TcpServer :=
  if s.evb.fires fd then
    match (s.evb.events fd).clientData with
    | some (.peer p) =>
      match s.objects[p]? with
      | some object =>
        if object.alive then
          ((s.stateOf object).turn now input).map fun (after, _) => s.commit p object after
        else none
      | none => none
    | _ => none
  else none

/-- `CreateSocket` on a process that has only the standard descriptors open. -/
def createSocket (listenfd epfd : Int) (counter : Option PeerCouner) : TcpServer :=
  let evb := EventLoop.aeCreateEventLoop (1024 * 10)
  { evb := match evb.aeCreateFileEvent listenfd AE_READABLE .acceptTcp with
      | .ok evb => evb
      | .error _ => evb
    objects := []
    peers := fun _ => none
    waitForDelele := []
    counter := counter
    errno := 0
    opened := [0, 1, 2, listenfd, epfd] }

end TcpServer

/-- What can happen to a server between two states. -/
inductive ServerEvent where
  | accept (answer : Except Errno Int)
  | readable (fd : Int) (now : Int32) (input : PeerInput)
  | timer (id : Nat)
  | failedCall (errno : Errno)

/-- `accept` returns no descriptor that is open, a timer has to exist to fire,
and calls elsewhere in the process may fail at any time. -/
def TcpServer.step (s : TcpServer) : ServerEvent → Option TcpServer
  | .accept (.ok fd) => if 0 ≤ fd ∧ fd ∉ s.opened then some (s.accept (.ok fd)) else none
  | .accept (.error errno) => some (s.accept (.error errno))
  | .readable fd now input => s.readable fd now input
  | .timer id =>
    if id ∈ s.evb.timeEvents.map (·.id) then
      let (next, retval) := s.deletePeerTimer
      some { next with evb := next.evb.timeProcReturned id retval }
    else none
  | .failedCall errno => some { s with errno }

end TcpCongestion
