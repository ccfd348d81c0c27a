import TcpCongestion.MinHeap32
import TcpCongestion.NetworkThread

/-! The task queue of `tcp/network_thread.cc` with the memory of its events: `new` puts an
event into a store under an address that is free, `delete` takes it out, and the heap
holds addresses. A `none` is an access outside the heap's array or to an event that is not
in the store. Each step is one statement of a call, or one round of a sift loop. -/
namespace TcpCongestion

inductive Direction where
  | up
  | down

/-- A sift loop before its next round. -/
structure Sift (α : Type) where
  direction : Direction
  hole : UInt32
  e : α

/-- One round of the loop and the loop it leaves, none when it has ended. -/
def Sift.round [DecidableEq α] (elem : Element α) (s : MinHeap32 α) (loop : Sift α) :
    Option (Cells32 α × Option (Sift α)) :=
  match loop.direction with
  | .up =>
    if loop.hole = 0 then
      (s.place elem loop.hole loop.e).map (·, none)
    else do
      let above ← s.read ((loop.hole - 1) / 2)
      if ← elem.elemGreater above loop.e then
        let cells ← s.place elem loop.hole above
        some (cells, some { loop with hole := (loop.hole - 1) / 2 })
      else
        (s.place elem loop.hole loop.e).map (·, none)
  | .down =>
    if 2 * (loop.hole + 1) ≤ s.n then do
      let child ← s.minChild elem s.n (2 * (loop.hole + 1))
      let below ← s.read child
      if ← elem.elemGreater loop.e below then
        let cells ← s.place elem loop.hole below
        if loop.hole < child then some (cells, some { loop with hole := child }) else none
      else
        (s.place elem loop.hole loop.e).map (·, none)
    else
      (s.place elem loop.hole loop.e).map (·, none)

/-- The events that are there, by address. A task that was moved out of its event is null;
`min_heap_idx` is kept with the heap's cells. -/
abbrev EventStore (τ : Type) := Nat → Option (TaskEvent (Option τ))

/-- `operator>` of the events two addresses point to. -/
def EventStore.element (store : EventStore τ) : Element Nat where
  greater a b :=
    match store a, store b with
    | some first, some second => TaskEvent.element.greater first second
    | _, _ => false
  live a := (store a).isSome

/-- Who called `min_heap_pop`. -/
inductive Popper (τ : Type) where
  | processTasks (timeMs : UInt64) (pendingTasks : List (Option τ))
  | clear (e : Nat)

/-- What follows a sift loop: the end of `min_heap_push`, or that of a `min_heap_pop` that
took `e` off the array. -/
inductive AfterSift (τ : Type) where
  | pushed
  | popped (e : Nat) (popper : Popper τ)

/-- What the call at the heap comes to next. All but the steps of `Clear` are made with
`pending_lock_` held. -/
inductive AtHeap (τ : Type) where
  /-- `min_heap_reserve` of a push. -/
  | push (event : Nat)
  /-- `e->min_heap_idx = -1` of a push, and `s->n++`. -/
  | mark (event : Nat)
  | sift (loop : Sift Nat) (after : AfterSift τ)
  /-- `e->min_heap_idx = -1` of a pop. -/
  | unmark (e : Nat) (popper : Popper τ)
  /-- `min_heap_pop`, up to its loop. -/
  | pop (popper : Popper τ)
  /-- The condition of the loop of `ProcessTasks`, and `min_heap_top`. -/
  | loop (timeMs : UInt64) (pendingTasks : List (Option τ))
  | compare (timeMs : UInt64) (pendingTasks : List (Option τ)) (event : Nat)
  | move (timeMs : UInt64) (pendingTasks : List (Option τ)) (event : Nat)
  | delete (timeMs : UInt64) (pendingTasks : List (Option τ)) (event : Nat)
  /-- The end of the scope of the lock, with the tasks to run after it. -/
  | unlock (pendingTasks : List (Option τ))
  /-- The condition of the loop of `Clear`, and `min_heap_top`. -/
  | clear
  | clearDelete (e : Nat)

/-- A call that is not at the heap. -/
inductive Away (τ : Type) where
  /-- `PostDelayedTask` has made its event and waits for the lock. -/
  | post (event : Nat)
  /-- `ProcessTasks` has read the clock and waits for the lock. -/
  | process (timeMs : UInt64)
  /-- The tasks that `ProcessTasks` has still to run. -/
  | run (pendingTasks : List (Option τ))

/-- Only one call is at the heap: those of `PostDelayedTask` and `ProcessTasks` hold
`pending_lock_`, and `Clear` is only called by the destructor, when every other call is
done with the queue. -/
structure EventQueue (τ : Type) where
  store : EventStore τ
  sHeap : MinHeap32 Nat
  atHeap : Option (AtHeap τ)
  away : List (Away τ)
  destroyed : Bool

inductive QueueMove (τ : Type) where
  /-- A call of `PostDelayedTask` gets as far as `new`, which returns `event`. -/
  | postDelayedTask (task : τ) (now : Reading) (timeMs : UInt32) (event : Nat)
  /-- A call of `ProcessTasks` has read the clock. -/
  | processTasks (timeMs : Reading)
  /-- A waiting call gets the lock. -/
  | lock (call : Nat)
  /-- The next step of the call at the heap; `allocates` is whether `realloc` finds the
  memory, should it be asked. -/
  | next (allocates : Bool)
  /-- `task->Run()`. What the task itself calls are moves of their own. -/
  | run (call : Nat)
  /-- The destructor calls `Clear`. -/
  | clear

def Popper.next : Popper τ → AtHeap τ
  | .processTasks timeMs pendingTasks => .loop timeMs pendingTasks
  | .clear e => .clearDelete e

def AfterSift.next : AfterSift τ → AtHeap τ
  | .pushed => .unlock []
  | .popped e popper => .unmark e popper

/-- The call once it has the lock. -/
def Away.locked : Away τ → Option (AtHeap τ)
  | .post event => some (.push event)
  | .process timeMs => some (.loop timeMs [])
  | .run _ => none

/-- The call once its first task has run; a null task cannot be run. -/
def Away.afterRun : Away τ → Option (Away τ)
  | .run (some _ :: rest) => some (.run rest)
  | _ => none

/-- The call does not come to the heap any more. -/
def Away.done : Away τ → Bool
  | .run _ => true
  | _ => false

namespace EventQueue

def ctor (memory : Nat → Nat) (idx : Nat → Int32) : EventQueue τ :=
  { store := fun _ => none, sHeap := MinHeap32.ctor memory idx, atHeap := none, away := [],
    destroyed := false }

/-- The next step of the call at the heap. -/
def advance (s : EventQueue τ) (allocates : Bool) : AtHeap τ → Option (EventQueue τ)
  | .push event =>
    let (sHeap, ret) := s.sHeap.reserve (s.sHeap.n + 1) allocates
    some { s with
      sHeap := sHeap
      atHeap := some (if ret ≠ 0 then .unlock [] else .mark event) }
  | .mark event => do
    let cells ← s.sHeap.setIdx s.store.element event (-1)
    some { s with
      sHeap := { toCells32 := cells, n := s.sHeap.n + 1 }
      atHeap := some (.sift { direction := .up, hole := s.sHeap.n, e := event } .pushed) }
  | .sift loop after => do
    let (cells, left) ← loop.round s.store.element s.sHeap
    some { s with
      sHeap := { toCells32 := cells, n := s.sHeap.n }
      atHeap := some (left.elim after.next (.sift · after)) }
  | .unmark e popper => do
    let cells ← s.sHeap.setIdx s.store.element e (-1)
    some { s with sHeap := { toCells32 := cells, n := s.sHeap.n }, atHeap := some popper.next }
  | .pop popper =>
    if s.sHeap.n ≠ 0 then do
      let e ← s.sHeap.read 0
      let last ← s.sHeap.read (s.sHeap.n - 1)
      some { s with
        sHeap := { s.sHeap with n := s.sHeap.n - 1 }
        atHeap := some (.sift { direction := .down, hole := 0, e := last } (.popped e popper)) }
    else
      some { s with atHeap := some popper.next }
  | .loop timeMs pendingTasks =>
    if s.sHeap.isEmpty then
      some { s with atHeap := some (.unlock pendingTasks) }
    else do
      let event ← (← s.sHeap.top)
      some { s with atHeap := some (.compare timeMs pendingTasks event) }
  | .compare timeMs pendingTasks event => do
    let held ← s.store event
    some { s with
      atHeap := some (if held.delay ≤ timeMs then .move timeMs pendingTasks event
        else .unlock pendingTasks) }
  | .move timeMs pendingTasks event => do
    let held ← s.store event
    some { s with
      store := Function.update s.store event (some { held with task := none })
      atHeap := some (.delete timeMs (pendingTasks ++ [held.task]) event) }
  | .delete timeMs pendingTasks event => do
    let _ ← s.store event
    some { s with
      store := Function.update s.store event none
      atHeap := some (.pop (.processTasks timeMs pendingTasks)) }
  | .unlock pendingTasks => some { s with atHeap := none, away := .run pendingTasks :: s.away }
  | .clear =>
    if s.sHeap.isEmpty then
      some { s with atHeap := none }
    else do
      let e ← (← s.sHeap.top)
      some { s with atHeap := some (.pop (.clear e)) }
  | .clearDelete e => do
    let _ ← s.store e
    some { s with store := Function.update s.store e none, atHeap := some .clear }

def step (s : EventQueue τ) : QueueMove τ → Option (EventQueue τ)
  | .postDelayedTask task now timeMs event =>
    if s.destroyed = false ∧ s.store event = none then
      some { s with
        store := Function.update s.store event (some ⟨now.value + timeMs.toUInt64, some task⟩)
        away := .post event :: s.away }
    else
      none
  | .processTasks timeMs =>
    if s.destroyed = false then some { s with away := .process timeMs.value :: s.away } else none
  | .lock call =>
    if s.atHeap.isNone then do
      let stage ← s.away[call]?.bind Away.locked
      some { s with atHeap := some stage, away := s.away.eraseIdx call }
    else
      none
  | .next allocates => s.atHeap.bind (s.advance allocates)
  | .run call => do
    let left ← s.away[call]?.bind Away.afterRun
    some { s with away := left :: s.away.eraseIdx call }
  | .clear =>
    if s.destroyed = false ∧ s.atHeap.isNone ∧ s.away.all Away.done then
      some { s with atHeap := some .clear, destroyed := true }
    else
      none

end EventQueue

end TcpCongestion
