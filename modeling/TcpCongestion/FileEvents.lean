import Mathlib.Logic.Function.Basic
import TcpCongestion.EventLoop
import TcpCongestion.Runs

/-! The file events of `thirdparty/redisnet/ae.c` over `ae_epoll.c` in full: the table with its
size and `maxfd`, the callbacks of both directions, and what the kernel polls for each
descriptor. `aeResizeSetSize` relies on `maxfd`, and `aeApiAddEvent` on the table to know what
the kernel has. -/
namespace TcpCongestion.FileEvents
open Posix Runs

/-- An `aeFileEvent`. Its pointers are `none` until they are written. -/
structure Entry (π δ : Type) where
  mask : BitVec 3
  rfileProc : Option π
  wfileProc : Option π
  clientData : Option δ
  deriving DecidableEq, Repr

/-- The members of the loop that concern file events, with the descriptors the process has
open and the events the kernel polls. What `events` gives beyond `setsize` is not part of
the array. -/
structure Loop (π δ : Type) where
  setsize : Nat
  maxfd : Int
  events : Nat → Entry π δ
  opened : Nat → Bool
  polled : Nat → Option (BitVec 3)

variable {π δ : Type}

/-- `aeCreateEventLoop`, in memory that holds anything. -/
def aeCreateEventLoop (setsize : Nat) (memory : Nat → Entry π δ) (opened : Nat → Bool) :
    Loop π δ where
  setsize := setsize
  maxfd := -1
  events := fun fd => { memory fd with mask := AE_NONE }
  opened := opened
  polled := fun _ => none

/-- `EPOLLIN` and `EPOLLOUT` of a mask. -/
def epollEvents (mask : BitVec 3) : BitVec 3 := mask &&& (AE_READABLE ||| AE_WRITABLE)

namespace Loop

/-- `epoll_ctl`. Adding may also fail for reasons of the kernel's own. -/
def epollCtl (l : Loop π δ) (op : EpollOp) (fd : Nat) (events : BitVec 3) (fault : Option Errno) :
    Except Errno (Loop π δ) :=
  if l.opened fd = false then .error EBADF
  else match op, l.polled fd, fault with
    | .add, some _, _ => .error EEXIST
    | .add, none, some errno => .error errno
    | .add, none, none => .ok { l with polled := Function.update l.polled fd (some events) }
    | .mod, none, _ => .error ENOENT
    | .mod, some _, _ => .ok { l with polled := Function.update l.polled fd (some events) }
    | .del, none, _ => .error ENOENT
    | .del, some _, _ => .ok { l with polled := Function.update l.polled fd none }

def aeApiAddEvent (l : Loop π δ) (fd : Nat) (mask : BitVec 3) (fault : Option Errno) :
    Except Errno (Loop π δ) :=
  let op := if (l.events fd).mask = AE_NONE then EpollOp.add else .mod
  let mask := mask ||| (l.events fd).mask
  l.epollCtl op fd (epollEvents mask) fault

/-- `aeCreateFileEvent`. A negative descriptor passes the check and indexes before the
array: there is no result. -/
def aeCreateFileEvent (l : Loop π δ) (fd : Int) (mask : BitVec 3) (proc : π) (clientData : δ)
    (fault : Option Errno) : Option (Except Errno (Loop π δ)) :=
  if fd ≥ l.setsize then some (.error ERANGE)
  else if fd < 0 then none
  else
    match l.aeApiAddEvent fd.toNat mask fault with
    | .error errno => some (.error errno)
    | .ok l =>
      let fe := l.events fd.toNat
      let fe := { fe with
        mask := fe.mask ||| mask
        rfileProc := if mask &&& AE_READABLE ≠ 0 then some proc else fe.rfileProc
        wfileProc := if mask &&& AE_WRITABLE ≠ 0 then some proc else fe.wfileProc
        clientData := some clientData }
      some (.ok { l with
        events := Function.update l.events fd.toNat fe
        maxfd := if fd > l.maxfd then fd else l.maxfd })

/-- The result of `epoll_ctl` is not looked at. -/
def aeApiDelEvent (l : Loop π δ) (fd : Nat) (delmask : BitVec 3) : Loop π δ :=
  let mask := (l.events fd).mask &&& ~~~delmask
  let op := if mask ≠ AE_NONE then EpollOp.mod else .del
  match l.epollCtl op fd (epollEvents mask) none with
  | .error _ => l
  | .ok l => l

/-- The search for the new `maxfd`: the last entry in use below `fd`, or -1. -/
def lastBelow (events : Nat → Entry π δ) : Nat → Int
  | 0 => -1
  | j + 1 => if (events j).mask ≠ AE_NONE then j else lastBelow events j

/-- The barrier goes with the writable event. -/
def withBarrier (mask : BitVec 3) : BitVec 3 :=
  if mask &&& AE_WRITABLE ≠ 0 then mask ||| AE_BARRIER else mask

/-- `aeDeleteFileEvent`. -/
def aeDeleteFileEvent (l : Loop π δ) (fd : Int) (mask : BitVec 3) : Option (Loop π δ) :=
  if fd ≥ l.setsize then some l
  else if fd < 0 then none
  else if (l.events fd.toNat).mask = AE_NONE then some l
  else
    let mask := withBarrier mask
    let l := l.aeApiDelEvent fd.toNat mask
    let fe := { l.events fd.toNat with mask := (l.events fd.toNat).mask &&& ~~~mask }
    let l := { l with events := Function.update l.events fd.toNat fe }
    if fd = l.maxfd ∧ fe.mask = AE_NONE then
      some { l with maxfd := lastBelow l.events l.maxfd.toNat }
    else some l

def aeGetFileEvents (l : Loop π δ) (fd : Nat) : BitVec 3 :=
  if fd ≥ l.setsize then 0 else (l.events fd).mask

/-- `aeResizeSetSize`; `none` is `AE_ERR`. New slots hold what the memory held. -/
def aeResizeSetSize (l : Loop π δ) (setsize : Int) (memory : Nat → Entry π δ) :
    Option (Loop π δ) :=
  if setsize = l.setsize then some l
  else if l.maxfd ≥ setsize then none
  else
    let cell (fd : Nat) := if fd < l.setsize then l.events fd else memory fd
    some { l with
      setsize := setsize.toNat
      events := fun fd =>
        if l.maxfd < fd ∧ fd < setsize then { cell fd with mask := AE_NONE } else cell fd }

end Loop

/-- A call on the loop, or the kernel giving out or taking back a descriptor. Nobody
registers for nothing. -/
inductive Op (π δ : Type) where
  | create (fd : Int) (mask : BitVec 3) (asked : mask ≠ AE_NONE) (proc : π) (clientData : δ)
      (fault : Option Errno)
  | delete (fd : Int) (mask : BitVec 3)
  | resize (setsize : Int) (memory : Nat → Entry π δ)
  | opens (fd : Nat)
  | closes (fd : Nat)

/-- A call that fails leaves the loop alone. -/
def Loop.step (l : Loop π δ) : Op π δ → Option (Loop π δ)
  | .create fd mask _ proc clientData fault =>
    (l.aeCreateFileEvent fd mask proc clientData fault).map fun
      | .error _ => l
      | .ok next => next
  | .delete fd mask => l.aeDeleteFileEvent fd mask
  | .resize setsize memory => some ((l.aeResizeSetSize setsize memory).getD l)
  | .opens fd =>
    if l.opened fd then none else some { l with opened := Function.update l.opened fd true }
  | .closes fd =>
    if l.opened fd then
      some { l with
        opened := Function.update l.opened fd false
        polled := Function.update l.polled fd none }
    else none

/-! ## What a step does -/

def Registered (l : Loop π δ) (fd : Nat) : Prop := l.aeGetFileEvents fd ≠ AE_NONE

instance (l : Loop π δ) (fd : Nat) : Decidable (Registered l fd) :=
  inferInstanceAs (Decidable (_ ≠ _))

/-- What a deletion leaves of a mask. -/
def remaining (old mask : BitVec 3) : BitVec 3 :=
  old &&& ~~~Loop.withBarrier mask

/-- The table after a resize to more than `maxfd` slots. -/
def resized (l : Loop π δ) (setsize : Int) (memory : Nat → Entry π δ) (fd : Nat) : Entry π δ :=
  let cell := if fd < l.setsize then l.events fd else memory fd
  if l.maxfd < fd ∧ fd < setsize then { cell with mask := AE_NONE } else cell

/-- All a step can do. -/
inductive Change (l : Loop π δ) : Op π δ → Loop π δ → Prop where
  | kept (quiet : ∀ fd, op ≠ .closes fd) : Change l op l
  | created (fd : Nat) (fe : Entry π δ) (inside : fd < l.setsize) (isOpen : l.opened fd = true)
      (mask_eq : fe.mask = (l.events fd).mask ||| mask) :
      Change l (.create fd mask asked proc clientData fault) { l with
        events := Function.update l.events fd fe
        maxfd := max l.maxfd fd
        polled := Function.update l.polled fd (some (epollEvents fe.mask)) }
  | deleted (fd : Nat) (fe : Entry π δ) (maxfd : Int) (polled : Nat → Option (BitVec 3))
      (inside : fd < l.setsize) (known : (l.events fd).mask ≠ AE_NONE)
      (fe_eq : fe = { l.events fd with mask := remaining (l.events fd).mask mask })
      (top : maxfd = if fd = l.maxfd ∧ fe.mask = AE_NONE then
        Loop.lastBelow (Function.update l.events fd fe) fd else l.maxfd)
      (told : l.opened fd = true → l.polled fd ≠ none → polled = Function.update l.polled fd
        (if fe.mask ≠ AE_NONE then some (epollEvents fe.mask) else none))
      (nothingNew : ∀ other, polled other ≠ none → l.polled other ≠ none) :
      Change l (.delete fd mask) { l with
        events := Function.update l.events fd fe
        maxfd := maxfd
        polled := polled }
  | resized (setsize : Int) (memory : Nat → Entry π δ) (room : l.maxfd < setsize) :
      Change l (.resize setsize memory) { l with
        setsize := setsize.toNat
        events := resized l setsize memory }
  | opened (fd : Nat) (fresh : l.opened fd = false) :
      Change l (.opens fd) { l with opened := Function.update l.opened fd true }
  | closed (fd : Nat) (isOpen : l.opened fd = true) :
      Change l (.closes fd) { l with
        opened := Function.update l.opened fd false
        polled := Function.update l.polled fd none }

variable {l next : Loop π δ} {op : Op π δ}

private theorem epollCtl_ok {op : EpollOp} (done : l.epollCtl op fd events fault = .ok next) :
    l.opened fd = true ∧ (op ≠ .add → l.polled fd ≠ none) ∧ next = { l with
      polled := Function.update l.polled fd (if op = .del then none else some events) } := by
  unfold Loop.epollCtl at done
  split at done
  · cases done
  · next shut =>
    refine ⟨by simpa using shut, ?_⟩
    split at done <;> cases done <;> simp_all

private theorem step_create
    (took : l.step (.create fd mask asked proc clientData fault) = some next) :
    Change l (.create fd mask asked proc clientData fault) next := by
  obtain ⟨result, created, rfl⟩ := Option.map_eq_some_iff.mp took
  unfold Loop.aeCreateFileEvent at created
  split at created
  · cases created
    exact .kept nofun
  · next inside =>
    split at created
    · cases created
    · next natural =>
      obtain ⟨fd, rfl⟩ := Int.eq_ofNat_of_zero_le (by omega : 0 ≤ fd)
      split at created
      · cases created
        exact .kept nofun
      · next added =>
        cases created
        obtain ⟨isOpen, _, rfl⟩ := epollCtl_ok added
        have kernel : (if (if (l.events fd).mask = AE_NONE then EpollOp.add else .mod) = .del then none
            else some (epollEvents (mask ||| (l.events fd).mask))) =
            some (epollEvents ((l.events fd).mask ||| mask)) := by
          rw [BitVec.or_comm, if_neg]
          split <;> exact nofun
        have top : (if (fd : Int) > l.maxfd then (fd : Int) else l.maxfd) = max l.maxfd fd := by
          split <;> omega
        dsimp only [Int.toNat_natCast] at kernel ⊢
        rw [kernel, top]
        exact .created fd _ (by omega) isOpen rfl

theorem aeApiDelEvent_spec (l : Loop π δ) (fd : Nat) (delmask : BitVec 3) :
    let left := (l.events fd).mask &&& ~~~delmask
    ∃ polled, l.aeApiDelEvent fd delmask = { l with polled } ∧
      (l.opened fd = true → l.polled fd ≠ none → polled = Function.update l.polled fd
        (if left ≠ AE_NONE then some (epollEvents left) else none)) ∧
      ∀ other, polled other ≠ none → l.polled other ≠ none := by
  intro left
  cases done : l.epollCtl (if left ≠ AE_NONE then .mod else .del) fd (epollEvents left) none with
  | error errno =>
    refine ⟨l.polled, ?_, fun isOpen member => ?_, fun _ => id⟩
    · rw [Loop.aeApiDelEvent, done]
    · obtain ⟨events, polled⟩ := Option.ne_none_iff_exists'.mp member
      by_cases gone : left = AE_NONE <;> simp [Loop.epollCtl, isOpen, polled, gone] at done
  | ok after =>
    obtain ⟨isOpen, polled, rfl⟩ := epollCtl_ok done
    have member : l.polled fd ≠ none := polled (by split <;> exact nofun)
    refine ⟨Function.update l.polled fd (if left ≠ AE_NONE then some (epollEvents left) else none), ?_,
      fun _ _ => rfl, fun other still => ?_⟩
    · rw [Loop.aeApiDelEvent, done]
      by_cases gone : left = AE_NONE <;> simp [gone]
    · by_cases same : other = fd
      · exact same ▸ member
      · rwa [Function.update_of_ne same] at still

private theorem step_delete (took : l.step (.delete fd mask) = some next) :
    Change l (.delete fd mask) next := by
  rw [Loop.step, Loop.aeDeleteFileEvent] at took
  split at took
  · cases took
    exact .kept nofun
  · next inside =>
    split at took
    · cases took
    · next natural =>
      obtain ⟨fd, rfl⟩ := Int.eq_ofNat_of_zero_le (by omega : 0 ≤ fd)
      split at took
      · cases took
        exact .kept nofun
      · next known =>
        obtain ⟨polled, removed, told, nothingNew⟩ := aeApiDelEvent_spec l fd (Loop.withBarrier mask)
        simp only [Int.toNat_natCast, removed] at took
        split at took
        · next both =>
          cases took
          have last : l.maxfd.toNat = fd := by omega
          rw [last]
          exact .deleted fd _ _ polled (by omega) known rfl (if_pos both).symm told nothingNew
        · next neither =>
          cases took
          exact .deleted fd _ _ polled (by omega) known rfl (if_neg neither).symm told nothingNew

theorem step_cases (took : l.step op = some next) : Change l op next := by
  cases op with
  | create fd mask asked proc clientData fault => exact step_create took
  | delete fd mask => exact step_delete took
  | resize setsize memory =>
    cases took
    rw [Loop.aeResizeSetSize]
    split
    · exact .kept nofun
    · split
      · exact .kept nofun
      · next room => exact .resized setsize memory (by omega)
  | opens fd =>
    rw [Loop.step] at took
    split at took
    · cases took
    · next fresh =>
      cases took
      exact .opened fd (by simpa using fresh)
  | closes fd =>
    rw [Loop.step] at took
    split at took
    · next isOpen =>
      cases took
      exact .closed fd isOpen
    · cases took

end TcpCongestion.FileEvents
