import Mathlib.Logic.Function.Basic
import TcpCongestion.Posix

/-! The event loop of `thirdparty/redisnet/ae.c` over `ae_epoll.c`: the table of registered
descriptors, the set the kernel polls for it, and the list of time events. The
kernel's part is as the manual has it: adding a member or changing a stranger
fails, and closing a descriptor takes it out of the set without telling the
table. -/
namespace TcpCongestion
open Posix

def AE_NONE : BitVec 3 := 0
def AE_READABLE : BitVec 3 := 1
def AE_WRITABLE : BitVec 3 := 2
def AE_BARRIER : BitVec 3 := 4
def AE_NOMORE : Int := -1

/-- An entry of the table; `clientData` stands for the callback as well. -/
structure FileEvent (δ : Type) where
  mask : BitVec 3
  clientData : Option δ

structure TimeEvent (τ : Type) where
  id : Nat
  clientData : τ
  deriving DecidableEq, Repr

/-- `interest` holds the descriptors in the epoll set. -/
structure EventLoop (δ τ : Type) where
  setsize : Int
  events : Int → FileEvent δ
  interest : List Int
  timeEventNextId : Nat
  timeEvents : List (TimeEvent τ)

inductive EpollOp where
  | add
  | mod
  | del
  deriving DecidableEq

/-- `epoll_ctl`, on the set of descriptors. -/
def epollCtl (interest : List Int) (fd : Int) : EpollOp → Except Errno (List Int)
  | .add => if fd ∈ interest then .error EEXIST else .ok (fd :: interest)
  | .mod => if fd ∈ interest then .ok interest else .error ENOENT
  | .del => if fd ∈ interest then .ok (interest.filter (· ≠ fd)) else .error ENOENT

namespace EventLoop

variable {δ τ : Type}

def aeCreateEventLoop (setsize : Int) : EventLoop δ τ where
  setsize := setsize
  events := fun _ => ⟨AE_NONE, none⟩
  interest := []
  timeEventNextId := 0
  timeEvents := []

def aeApiAddEvent (loop : EventLoop δ τ) (fd : Int) : Except Errno (EventLoop δ τ) :=
  let op := if (loop.events fd).mask = AE_NONE then EpollOp.add else .mod
  match epollCtl loop.interest fd op with
  | .error errno => .error errno
  | .ok interest => .ok { loop with interest }

/-- `aeCreateFileEvent`; `maxfd` is not kept. -/
def aeCreateFileEvent (loop : EventLoop δ τ) (fd : Int) (mask : BitVec 3) (clientData : δ) :
    Except Errno (EventLoop δ τ) :=
  if fd ≥ loop.setsize then .error ERANGE
  else match loop.aeApiAddEvent fd with
    | .error errno => .error errno
    | .ok loop => .ok { loop with
      events := Function.update loop.events fd
        ⟨(loop.events fd).mask ||| mask, some clientData⟩ }

def aeApiDelEvent (loop : EventLoop δ τ) (fd : Int) (delmask : BitVec 3) : EventLoop δ τ :=
  let op := if (loop.events fd).mask &&& ~~~delmask = AE_NONE then EpollOp.del else .mod
  match epollCtl loop.interest fd op with
  | .error _ => loop
  | .ok interest => { loop with interest }

/-- `aeDeleteFileEvent`. -/
def aeDeleteFileEvent (loop : EventLoop δ τ) (fd : Int) (mask : BitVec 3) : EventLoop δ τ :=
  if fd ≥ loop.setsize then loop
  else if (loop.events fd).mask = AE_NONE then loop
  else
    let mask := if mask &&& AE_WRITABLE ≠ 0 then mask ||| AE_BARRIER else mask
    let loop := loop.aeApiDelEvent fd mask
    let event := { loop.events fd with mask := (loop.events fd).mask &&& ~~~mask }
    { loop with events := Function.update loop.events fd event }

/-- `aeCreateTimeEvent`: the new event goes to the head of the list. -/
def aeCreateTimeEvent (loop : EventLoop δ τ) (clientData : τ) : EventLoop δ τ :=
  { loop with
    timeEventNextId := loop.timeEventNextId + 1
    timeEvents := ⟨loop.timeEventNextId, clientData⟩ :: loop.timeEvents }

/-- What `processTimeEvents` does with the result of a callback: only
`AE_NOMORE` ends the event. -/
def timeProcReturned (loop : EventLoop δ τ) (id : Nat) (retval : Int) : EventLoop δ τ :=
  if retval = AE_NOMORE then
    { loop with timeEvents := loop.timeEvents.filter (·.id ≠ id) }
  else loop

/-- The kernel closes a descriptor. -/
def closed (loop : EventLoop δ τ) (fd : Int) : EventLoop δ τ :=
  { loop with interest := loop.interest.filter (· ≠ fd) }

/-- Whether `epoll_wait` can report the descriptor and the table has a reader for it. -/
def fires (loop : EventLoop δ τ) (fd : Int) : Bool :=
  decide (fd ∈ loop.interest) && decide ((loop.events fd).mask &&& AE_READABLE ≠ 0)

/-! ## What the operations do -/

/-- Registering a descriptor the table does not know and the kernel does not
poll. -/
theorem aeCreateFileEvent_new (loop : EventLoop δ τ) (fd : Int) (mask : BitVec 3) (clientData : δ)
    (small : fd < loop.setsize) (unknown : (loop.events fd).mask = AE_NONE)
    (idle : fd ∉ loop.interest) :
    loop.aeCreateFileEvent fd mask clientData = .ok { loop with
      interest := fd :: loop.interest
      events := Function.update loop.events fd ⟨mask, some clientData⟩ } := by
  have fits : ¬ fd ≥ loop.setsize := by omega
  simp [aeCreateFileEvent, aeApiAddEvent, epollCtl, fits, unknown, idle, AE_NONE]

/-- Registering one the table still knows although the kernel has dropped it. -/
theorem aeCreateFileEvent_stale (loop : EventLoop δ τ) (fd : Int) (mask : BitVec 3)
    (clientData : δ) (small : fd < loop.setsize) (known : (loop.events fd).mask ≠ AE_NONE)
    (idle : fd ∉ loop.interest) : loop.aeCreateFileEvent fd mask clientData = .error ENOENT := by
  have fits : ¬ fd ≥ loop.setsize := by omega
  simp [aeCreateFileEvent, aeApiAddEvent, epollCtl, fits, known, idle]

theorem fires_iff (loop : EventLoop δ τ) (fd : Int) :
    loop.fires fd = true ↔
      fd ∈ loop.interest ∧ (loop.events fd).mask &&& AE_READABLE ≠ 0 := by
  simp [fires]

end EventLoop

end TcpCongestion
