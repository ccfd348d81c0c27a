import Mathlib.Algebra.Group.Nat.Defs
import TcpCongestion.MinHeap

/-! The task queue of `tcp/network_thread.cc`: a heap of tasks by the time each is due.
The thread's event loop polls it once a millisecond. A task event is a value here, the
memory for it is always found, and the numbers of the heap have no bounds. -/
namespace TcpCongestion

/-- What `base::TimeMillis` returns: a signed 64-bit count, and not a negative one. -/
structure Reading where
  value : UInt64
  nonneg : value.toNat < 2 ^ 63
deriving DecidableEq

/-- A reading of the first 49 days. -/
def Reading.early (ms : UInt32) : Reading where
  value := ms.toUInt64
  nonneg := by
    rw [UInt32.toNat_toUInt64]
    exact ms.toNat_lt.trans (by decide)

/-- `delay` is the time the task is due, not how long from now. -/
structure TaskEvent (τ : Type) where
  delay : UInt64
  task : τ
deriving DecidableEq

/-- `operator>` of a task event. -/
def TaskEvent.element : Element (TaskEvent τ) where
  greater a b := decide (a.delay > b.delay)
  live _ := true

structure NetworkThread (τ : Type) where
  sHeap : MinHeap (TaskEvent τ)

namespace NetworkThread

variable [DecidableEq τ]

def postDelayedTask (s : NetworkThread τ) (task : τ) (now : Reading) (timeMs : UInt32) :
    Option (NetworkThread τ) := do
  let future := now.value + timeMs.toUInt64
  let (sHeap, _) ← s.sHeap.push TaskEvent.element ⟨future, task⟩ true
  some { s with sHeap := sHeap }

def postTask (s : NetworkThread τ) (task : τ) (now : Reading) : Option (NetworkThread τ) :=
  s.postDelayedTask task now 0

/-- The part of `ProcessTasks` that holds `pending_lock_`: it moves the tasks that are due
from the heap to the list it then runs. -/
def takePending (s : NetworkThread τ) (timeMs : UInt64) :
    Option (NetworkThread τ × List τ) :=
  if occupied : s.sHeap.isEmpty = false then
    match s.sHeap.top with
    | some (some event) =>
      if event.delay ≤ timeMs then
        match popped : s.sHeap.pop TaskEvent.element with
        | some (sHeap, _) => do
          have : sHeap.n < s.sHeap.n := MinHeap.pop_lt occupied popped
          let (s, pendingTasks) ← takePending { s with sHeap := sHeap } timeMs
          some (s, event.task :: pendingTasks)
        | none => none
      else
        some (s, [])
    | _ => none
  else
    some (s, [])
termination_by s.sHeap.n

end NetworkThread

end TcpCongestion
