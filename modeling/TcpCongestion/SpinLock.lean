import TcpCongestion.EventLifetime
import TcpCongestion.Runs

/-! `base/lock.h` under the task queue of `tcp/network_thread.cc`. `EventQueue` has one place at
the heap, for the call that holds `pending_lock_`. Here any number of calls can be there, and what
keeps them apart is `lock_` itself: each round of the loops of `Enter` and `Leave` is one
`atomic_cas`. The calls in any order of steps are then a run of the queue. -/
namespace TcpCongestion
open Runs EventLifetime

structure AtomicLock where
  lock : Int
  deriving DecidableEq, Repr

/-- `atomic_cas(&lock_, old, new)`. -/
def AtomicLock.atomicCas (l : AtomicLock) (old new : Int) : AtomicLock × Bool :=
  if l.lock = old then (⟨new⟩, true) else (l, false)

/-- The queue with the calls that are past `Enter`, or in `Clear`, wherever each of them is. -/
structure EventThreads (τ : Type) where
  pendingLock : AtomicLock
  store : EventStore τ
  sHeap : MinHeap32 Nat
  inside : List (AtHeap τ)
  away : List (Away τ)
  destroyed : Bool

inductive ThreadMove (τ : Type) where
  | postDelayedTask (task : τ) (now : Reading) (timeMs : UInt32) (event : Nat)
  | processTasks (timeMs : Reading)
  /-- One round of the loop of `Enter` in a call that waits. -/
  | enter (call : Nat)
  /-- The next step of a call that is inside; at the end of the scope of the lock, one round of
  the loop of `Leave`. -/
  | next (call : Nat) (allocates : Bool)
  | run (call : Nat)
  | clear

/-- The step belongs to `Clear`, which does not take the lock. -/
def AtHeap.clears : AtHeap τ → Bool
  | .sift _ (.popped _ (.clear _)) => true
  | .unmark _ (.clear _) => true
  | .pop (.clear _) => true
  | .clear => true
  | .clearDelete _ => true
  | _ => false

namespace EventThreads

def ctor (memory : Nat → Nat) (idx : Nat → Int32) : EventThreads τ :=
  { pendingLock := ⟨0⟩, store := fun _ => none, sHeap := MinHeap32.ctor memory idx, inside := [],
    away := [], destroyed := false }

/-- The queue as one call sees it. -/
def queue (t : EventThreads τ) (atHeap : Option (AtHeap τ)) : EventQueue τ :=
  { store := t.store, sHeap := t.sHeap, atHeap, away := t.away, destroyed := t.destroyed }

/-- A move that has to do neither with the lock nor with the heap. -/
def aside (t : EventThreads τ) (move : QueueMove τ) : Option (EventThreads τ) := do
  let q ← (t.queue none).step move
  some { t with store := q.store, away := q.away }

def step (t : EventThreads τ) : ThreadMove τ → Option (EventThreads τ)
  | .postDelayedTask task now timeMs event => t.aside (.postDelayedTask task now timeMs event)
  | .processTasks timeMs => t.aside (.processTasks timeMs)
  | .enter call => do
    let stage ← t.away[call]?.bind Away.locked
    let (pendingLock, entered) := t.pendingLock.atomicCas 0 1
    if entered then
      some { t with pendingLock, inside := stage :: t.inside, away := t.away.eraseIdx call }
    else some t
  | .next call allocates => do
    let stage ← t.inside[call]?
    match stage with
    | .unlock pendingTasks =>
      let (pendingLock, left) := t.pendingLock.atomicCas 1 0
      if left then
        some { t with
          pendingLock, inside := t.inside.eraseIdx call, away := .run pendingTasks :: t.away }
      else some t
    | stage =>
      let q ← (t.queue (some stage)).advance allocates stage
      some { t with
        store := q.store
        sHeap := q.sHeap
        inside := q.atHeap.elim (t.inside.eraseIdx call) (t.inside.set call ·) }
  | .run call => t.aside (.run call)
  | .clear =>
    if t.destroyed = false ∧ t.inside.isEmpty ∧ t.away.all Away.done then
      some { t with inside := [.clear], destroyed := true }
    else none

end EventThreads

/-- The move of the queue that a round of `Enter` makes if it gets the lock, and the other
moves as they are. -/
def ThreadMove.plain : ThreadMove τ → QueueMove τ
  | .postDelayedTask task now timeMs event => .postDelayedTask task now timeMs event
  | .processTasks timeMs => .processTasks timeMs
  | .enter call => .lock call
  | .next _ allocates => .next allocates
  | .run call => .run call
  | .clear => .clear

/-- A move of the queue made by a call that finds the lock free. -/
def QueueMove.threaded : QueueMove τ → ThreadMove τ
  | .postDelayedTask task now timeMs event => .postDelayedTask task now timeMs event
  | .processTasks timeMs => .processTasks timeMs
  | .lock call => .enter call
  | .next allocates => .next 0 allocates
  | .run call => .run call
  | .clear => .clear

namespace EventThreads

/-- A round of `Enter` that finds the lock taken. -/
def spins (t : EventThreads τ) : ThreadMove τ → Bool
  | .enter _ => t.pendingLock.lock ≠ 0
  | _ => false

/-- The moves of the queue along a run of the threads: the rounds that only spin are dropped. -/
def taken (t : EventThreads τ) : List (ThreadMove τ) → List (QueueMove τ)
  | [] => []
  | move :: rest =>
    match t.step move with
    | none => []
    | some next => if t.spins move then next.taken rest else move.plain :: next.taken rest

/-- The queue with the call that is inside as the one at the heap. -/
def asQueue (t : EventThreads τ) : EventQueue τ :=
  t.queue t.inside.head?

/-- At most one call is inside, and `lock_` is 1 just while it is one that entered. Nothing waits
for the lock once `Clear` has begun, which goes without it. -/
structure Exclusive (t : EventThreads τ) : Prop where
  single : t.inside.length ≤ 1
  lock : t.pendingLock.lock = if t.inside.any (fun stage => !stage.clears) then 1 else 0
  closing : ∀ stage ∈ t.inside, stage.clears = true → t.destroyed = true
  closed : t.destroyed = true → t.away.all Away.done = true

end EventThreads

/-! ## What a step at the heap leaves alone -/

private theorem Popper.next_clears (popper : Popper τ) :
    popper.next.clears = (AtHeap.pop popper : AtHeap τ).clears := by
  cases popper <;> rfl

private theorem AfterSift.next_clears (after : AfterSift τ) (loop : Sift Nat) :
    after.next.clears = (AtHeap.sift loop after : AtHeap τ).clears := by
  cases after with
  | pushed => rfl
  | popped e popper => cases popper <;> rfl

/-- A call stays the call it is: one of `Clear`, or one with the lock. It leaves the heap only
when it is done there. -/
theorem advance_keeps {q later : EventQueue τ} {stage : AtHeap τ}
    (locked : ∀ pendingTasks, stage ≠ .unlock pendingTasks)
    (made : q.advance allocates stage = some later) :
    later.away = q.away ∧ later.destroyed = q.destroyed ∧
      (∀ next, later.atHeap = some next → next.clears = stage.clears) ∧
      (later.atHeap = none → stage.clears = true) := by
  cases stage with
  | push event =>
    cases made
    refine ⟨rfl, rfl, ?_, by rintro ⟨⟩⟩
    rintro next ⟨⟩
    rw [apply_ite AtHeap.clears]
    exact ite_self false
  | mark event =>
    obtain ⟨cells, -, made⟩ := Option.bind_eq_some_iff.mp made
    cases made
    exact ⟨rfl, rfl, by rintro next ⟨⟩; rfl, by rintro ⟨⟩⟩
  | sift loop after =>
    obtain ⟨⟨cells, left⟩, -, made⟩ := Option.bind_eq_some_iff.mp made
    cases made
    refine ⟨rfl, rfl, ?_, by rintro ⟨⟩⟩
    rintro next ⟨⟩
    cases left with
    | none => exact after.next_clears loop
    | some more =>
      cases after with
      | pushed => rfl
      | popped e popper => cases popper <;> rfl
  | unmark e popper =>
    obtain ⟨cells, -, made⟩ := Option.bind_eq_some_iff.mp made
    cases made
    refine ⟨rfl, rfl, ?_, by rintro ⟨⟩⟩
    rintro next ⟨⟩
    cases popper <;> rfl
  | pop popper =>
    rw [EventQueue.advance] at made
    split at made
    · obtain ⟨e, -, made⟩ := Option.bind_eq_some_iff.mp made
      obtain ⟨last, -, made⟩ := Option.bind_eq_some_iff.mp made
      cases made
      refine ⟨rfl, rfl, ?_, by rintro ⟨⟩⟩
      rintro next ⟨⟩
      cases popper <;> rfl
    · cases made
      refine ⟨rfl, rfl, ?_, by rintro ⟨⟩⟩
      rintro next ⟨⟩
      exact popper.next_clears
  | loop timeMs pendingTasks =>
    rw [EventQueue.advance] at made
    split at made
    · cases made
      exact ⟨rfl, rfl, by rintro next ⟨⟩; rfl, by rintro ⟨⟩⟩
    · obtain ⟨top, -, made⟩ := Option.bind_eq_some_iff.mp made
      obtain ⟨event, -, made⟩ := Option.bind_eq_some_iff.mp made
      cases made
      exact ⟨rfl, rfl, by rintro next ⟨⟩; rfl, by rintro ⟨⟩⟩
  | compare timeMs pendingTasks event =>
    obtain ⟨held, -, made⟩ := Option.bind_eq_some_iff.mp made
    cases made
    refine ⟨rfl, rfl, ?_, by rintro ⟨⟩⟩
    rintro next ⟨⟩
    split <;> rfl
  | move timeMs pendingTasks event =>
    obtain ⟨held, -, made⟩ := Option.bind_eq_some_iff.mp made
    cases made
    exact ⟨rfl, rfl, by rintro next ⟨⟩; rfl, by rintro ⟨⟩⟩
  | delete timeMs pendingTasks event =>
    obtain ⟨held, -, made⟩ := Option.bind_eq_some_iff.mp made
    cases made
    exact ⟨rfl, rfl, by rintro next ⟨⟩; rfl, by rintro ⟨⟩⟩
  | unlock pendingTasks => exact (locked pendingTasks rfl).elim
  | clear =>
    rw [EventQueue.advance] at made
    split at made
    · cases made
      exact ⟨rfl, rfl, by rintro next ⟨⟩, fun _ => rfl⟩
    · obtain ⟨top, -, made⟩ := Option.bind_eq_some_iff.mp made
      obtain ⟨e, -, made⟩ := Option.bind_eq_some_iff.mp made
      cases made
      exact ⟨rfl, rfl, by rintro next ⟨⟩; rfl, by rintro ⟨⟩⟩
  | clearDelete e =>
    obtain ⟨held, -, made⟩ := Option.bind_eq_some_iff.mp made
    cases made
    exact ⟨rfl, rfl, by rintro next ⟨⟩; rfl, by rintro ⟨⟩⟩

namespace EventThreads

variable {t later : EventThreads τ}

private theorem ctor_exclusive (memory : Nat → Nat) (idx : Nat → Int32) :
    (ctor memory idx : EventThreads τ).Exclusive := by
  refine ⟨Nat.zero_le _, rfl, ?_, ?_⟩
  · intro stage inside
    exact (List.not_mem_nil inside).elim
  · intro _
    rfl

/-! ## Moves that have to do neither with the lock nor with the heap -/

def Aside : QueueMove τ → Prop
  | .postDelayedTask .. => True
  | .processTasks _ => True
  | .run _ => True
  | _ => False

/-- Such a move is the same whichever call is at the heap. -/
theorem aside_step {move : QueueMove τ} (off : Aside move) (atHeap : Option (AtHeap τ)) :
    (t.aside move).map (·.queue atHeap) = (t.queue atHeap).step move := by
  cases move with
  | postDelayedTask task now timeMs event =>
    by_cases posts : t.destroyed = false ∧ t.store event = none
    · simp [aside, EventQueue.step, queue, posts]
    · simp [aside, EventQueue.step, queue, posts]
  | processTasks timeMs =>
    by_cases stands : t.destroyed = false
    · simp [aside, EventQueue.step, queue, stands]
    · simp [aside, EventQueue.step, queue, stands]
  | run call =>
    simp only [aside, EventQueue.step, queue]
    cases t.away[call]?.bind Away.afterRun <;> rfl
  | lock => exact off.elim
  | next => exact off.elim
  | clear => exact off.elim

private theorem aside_frame {move : QueueMove τ} (made : t.aside move = some later) :
    later.pendingLock = t.pendingLock ∧ later.inside = t.inside ∧
      later.destroyed = t.destroyed := by
  obtain ⟨q, -, made⟩ := Option.bind_eq_some_iff.mp made
  cases made
  exact ⟨rfl, rfl, rfl⟩

private theorem afterRun_done {call left : Away τ} (ran : call.afterRun = some left) :
    left.done = true := by
  rcases call with _ | _ | (_ | ⟨_ | task, rest⟩)
  all_goals cases ran
  rfl

private theorem aside_done {move : QueueMove τ} (off : Aside move) (closed : t.destroyed = true)
    (quiet : t.away.all Away.done = true) (made : t.aside move = some later) :
    later.away.all Away.done = true := by
  obtain ⟨q, took, made⟩ := Option.bind_eq_some_iff.mp made
  cases made
  cases move with
  | postDelayedTask task now timeMs event => simp [EventQueue.step, queue, closed] at took
  | processTasks timeMs => simp [EventQueue.step, queue, closed] at took
  | run call =>
    obtain ⟨left, ran, took⟩ := Option.bind_eq_some_iff.mp took
    obtain ⟨waiting, -, ran⟩ := Option.bind_eq_some_iff.mp ran
    cases took
    apply List.all_eq_true.mpr
    intro other mem
    rcases List.mem_cons.mp mem with rfl | mem
    · exact afterRun_done ran
    · exact List.all_eq_true.mp quiet other (List.mem_of_mem_eraseIdx mem)
  | lock => exact off.elim
  | next => exact off.elim
  | clear => exact off.elim

private theorem Exclusive.aside {move : QueueMove τ} (excl : t.Exclusive) (off : Aside move)
    (made : t.aside move = some later) :
    later.Exclusive ∧ t.asQueue.step move = some later.asQueue := by
  obtain ⟨sameLock, sameInside, sameEnd⟩ := aside_frame made
  constructor
  · refine ⟨?_, ?_, ?_, ?_⟩
    · rw [sameInside]
      exact excl.single
    · rw [sameLock, sameInside]
      exact excl.lock
    · rw [sameInside, sameEnd]
      exact excl.closing
    · rw [sameEnd]
      intro closed
      exact aside_done off closed (excl.closed closed) made
  · rw [asQueue, asQueue, sameInside, ← aside_step off, made]
    rfl

/-! ## The rounds of the lock, and the steps under it -/

private theorem locked_clears {call : Away τ} {stage : AtHeap τ}
    (locked : call.locked = some stage) : call.done = false ∧ stage.clears = false := by
  cases call with
  | post event =>
    cases locked
    exact ⟨rfl, rfl⟩
  | process timeMs =>
    cases locked
    exact ⟨rfl, rfl⟩
  | run pendingTasks => cases locked

/-- A call that waits while the lock is free finds nobody inside. -/
theorem Exclusive.nobody (excl : t.Exclusive) (free : t.pendingLock.lock = 0)
    {call : Nat} {stage : AtHeap τ} (waits : t.away[call]?.bind Away.locked = some stage) :
    t.inside = [] ∧ t.destroyed = false := by
  obtain ⟨waiting, found, locked⟩ := Option.bind_eq_some_iff.mp waits
  have standing : t.destroyed = false := by
    apply Bool.eq_false_iff.mpr
    intro closed
    have done := List.all_eq_true.mp (excl.closed closed) waiting (List.mem_of_getElem? found)
    rw [(locked_clears locked).1] at done
    cases done
  refine ⟨?_, standing⟩
  apply List.eq_nil_iff_forall_not_mem.mpr
  intro other mem
  cases kind : other.clears with
  | true =>
    have closed := excl.closing other mem kind
    rw [standing] at closed
    cases closed
  | false =>
    have entered : t.inside.any (fun stage => !stage.clears) = true :=
      List.any_eq_true.mpr ⟨other, mem, by rw [kind]; rfl⟩
    have taken := excl.lock
    rw [entered, free] at taken
    cases taken

private theorem Exclusive.enter (excl : t.Exclusive) (free : t.pendingLock.lock = 0)
    {call : Nat} (made : t.step (.enter call) = some later) :
    later.Exclusive ∧ t.asQueue.step (.lock call) = some later.asQueue := by
  obtain ⟨stage, waits, made⟩ := Option.bind_eq_some_iff.mp made
  obtain ⟨nobody, standing⟩ := excl.nobody free waits
  obtain ⟨waiting, -, locked⟩ := Option.bind_eq_some_iff.mp waits
  simp only [AtomicLock.atomicCas, if_pos free, if_true] at made
  cases made
  constructor
  · refine ⟨?_, ?_, ?_, ?_⟩
    · rw [nobody]
      exact Nat.le_refl 1
    · simp [nobody, (locked_clears locked).2]
    · intro other mem closes
      rw [nobody] at mem
      rw [List.mem_singleton.mp mem, (locked_clears locked).2] at closes
      cases closes
    · intro closed
      rw [standing] at closed
      cases closed
  · simp only [asQueue, queue, nobody, EventQueue.step, waits]
    rfl

/-- The only call that can take a step inside is the first. -/
theorem Exclusive.only (excl : t.Exclusive) {call : Nat} {stage : AtHeap τ}
    (found : t.inside[call]? = some stage) : call = 0 ∧ t.inside = [stage] := by
  have single := excl.single
  obtain ⟨bound, -⟩ := List.getElem?_eq_some_iff.mp found
  have first : call = 0 := by omega
  subst first
  refine ⟨rfl, ?_⟩
  obtain ⟨only, alone⟩ := List.length_eq_one_iff.mp (show t.inside.length = 1 by omega)
  rw [alone] at found ⊢
  cases found
  rfl

private theorem step_next (waits : t.inside[call]? = some stage)
    (inner : ∀ pendingTasks, stage ≠ .unlock pendingTasks) :
    t.step (.next call allocates) =
      ((t.queue (some stage)).advance allocates stage).map fun q =>
        { t with
          store := q.store
          sHeap := q.sHeap
          inside := q.atHeap.elim (t.inside.eraseIdx call) (t.inside.set call ·) } := by
  simp only [step, waits, Option.bind_eq_bind, Option.bind_some]
  cases stage with
  | unlock pendingTasks => exact (inner pendingTasks rfl).elim
  | _ => exact Option.map_eq_bind.symm

/-- `Leave` does not spin: the call that leaves has the lock. -/
theorem Exclusive.leave (excl : t.Exclusive) (allocates : Bool)
    {pendingTasks : List (Option τ)} (found : t.inside[call]? = some (.unlock pendingTasks)) :
    ∃ later, t.step (.next call allocates) = some later ∧ later.Exclusive ∧
      t.asQueue.step (.next allocates) = some later.asQueue := by
  obtain ⟨rfl, alone⟩ := excl.only found
  have taken : t.pendingLock.lock = 1 := by
    rw [excl.lock, alone]
    rfl
  refine ⟨{ t with
    pendingLock := ⟨0⟩, inside := [], away := .run pendingTasks :: t.away }, ?_, ?_, ?_⟩
  · simp [step, AtomicLock.atomicCas, taken, alone]
  · refine ⟨Nat.zero_le _, rfl, ?_, ?_⟩
    · intro stage mem
      exact (List.not_mem_nil mem).elim
    · intro closed
      exact excl.closed closed
  · simp only [asQueue, queue, alone]
    rfl

private theorem Exclusive.inner (excl : t.Exclusive) (found : t.inside[call]? = some stage)
    (inner : ∀ pendingTasks, stage ≠ .unlock pendingTasks)
    (made : t.step (.next call allocates) = some later) :
    later.Exclusive ∧ t.asQueue.step (.next allocates) = some later.asQueue := by
  rw [step_next found inner] at made
  obtain ⟨rfl, alone⟩ := excl.only found
  obtain ⟨q, took, made⟩ := Option.map_eq_some_iff.mp made
  obtain ⟨sameAway, sameEnd, kind, ended⟩ := advance_keeps inner took
  have lock := excl.lock
  have closing := excl.closing stage (by rw [alone]; exact List.mem_singleton.mpr rfl)
  have next : t.asQueue.step (.next allocates) = some q := by
    simpa only [asQueue, queue, alone, EventQueue.step, List.head?_cons, Option.bind_some]
      using took
  cases made
  cases left : q.atHeap with
  | none =>
    rw [alone] at lock
    simp only [List.any_cons, ended left] at lock
    refine ⟨⟨?_, ?_, ?_, excl.closed⟩, ?_⟩
    · simp [alone]
    · simpa [alone] using lock
    · simp [alone]
    · rw [next]
      cases q
      simp_all [asQueue, queue]
  | some stage' =>
    have same := kind stage' left
    rw [alone] at lock
    refine ⟨⟨?_, ?_, ?_, excl.closed⟩, ?_⟩
    · simp [alone]
    · simpa [alone, same] using lock
    · intro other mem closes
      simp only [alone, Option.elim_some, List.set_cons_zero, List.mem_singleton] at mem
      rw [mem, same] at closes
      exact closing closes
    · rw [next]
      cases q
      simp_all [asQueue, queue]

private theorem Exclusive.clear (excl : t.Exclusive) (made : t.step .clear = some later) :
    later.Exclusive ∧ t.asQueue.step .clear = some later.asQueue := by
  simp only [step] at made
  split at made
  · rename_i quiet
    obtain ⟨standing, nobody, done⟩ := quiet
    have empty := List.isEmpty_iff.mp nobody
    have lock := excl.lock
    rw [empty] at lock
    cases made
    refine ⟨⟨Nat.le_refl 1, lock, fun _ _ _ => rfl, fun _ => done⟩, ?_⟩
    simp [asQueue, queue, empty, EventQueue.step, standing, done]
  · cases made

/-- One move of the threads is a round of `Enter` that changes nothing, or the move of the
queue. -/
theorem Exclusive.step (excl : t.Exclusive) (made : t.step move = some later) :
    later.Exclusive ∧
      if t.spins move then later = t else t.asQueue.step move.plain = some later.asQueue := by
  cases move with
  | postDelayedTask task now timeMs event => exact excl.aside trivial made
  | processTasks timeMs => exact excl.aside trivial made
  | run call => exact excl.aside trivial made
  | clear => exact excl.clear made
  | enter call =>
    by_cases free : t.pendingLock.lock = 0
    · obtain ⟨kept, took⟩ := excl.enter free made
      refine ⟨kept, ?_⟩
      rw [if_neg (by simp [spins, free])]
      exact took
    · obtain ⟨stage, -, made⟩ := Option.bind_eq_some_iff.mp made
      simp only [AtomicLock.atomicCas, if_neg free] at made
      cases made
      refine ⟨excl, ?_⟩
      rw [if_pos (by simp [spins, free])]
  | next call allocates =>
    obtain ⟨stage, found, -⟩ := Option.bind_eq_some_iff.mp made
    by_cases leaves : ∃ pendingTasks, stage = .unlock pendingTasks
    · obtain ⟨pendingTasks, rfl⟩ := leaves
      obtain ⟨left, took, kept, same⟩ := excl.leave allocates found
      cases took.symm.trans made
      exact ⟨kept, same⟩
    · exact excl.inner found (fun pendingTasks same => leaves ⟨pendingTasks, same⟩) made

private theorem Exclusive.run {moves : List (ThreadMove τ)} (excl : t.Exclusive)
    (ran : run EventThreads.step t moves = some later) :
    later.Exclusive ∧ run EventQueue.step t.asQueue (t.taken moves) = some later.asQueue := by
  induction moves generalizing t with
  | nil =>
    cases ran
    exact ⟨excl, rfl⟩
  | cons move rest ih =>
    obtain ⟨next, made, onward⟩ := run_cons.mp ran
    obtain ⟨kept, same⟩ := excl.step made
    obtain ⟨last, followed⟩ := ih kept onward
    refine ⟨last, ?_⟩
    simp only [taken, made]
    split at same
    · rename_i spun
      rw [if_pos spun, ← same]
      rw [same] at followed ⊢
      exact followed
    · rename_i moved
      rw [if_neg moved]
      exact run_cons.mpr ⟨next.asQueue, same, followed⟩

/-! ## Every run of the queue is one of the threads -/

private theorem aside_serves {move : QueueMove τ} (took : t.asQueue.step move = some q)
    (off : Aside move) : ∃ later, t.aside move = some later := by
  rw [asQueue, ← aside_step off] at took
  obtain ⟨later, made, -⟩ := Option.map_eq_some_iff.mp took
  exact ⟨later, made⟩

private theorem Exclusive.serves (excl : t.Exclusive) {move : QueueMove τ}
    (took : t.asQueue.step move = some q) :
    ∃ later, t.step move.threaded = some later ∧ t.spins move.threaded = false := by
  cases move with
  | postDelayedTask task now timeMs event =>
    obtain ⟨later, made⟩ := aside_serves took trivial
    exact ⟨later, made, rfl⟩
  | processTasks timeMs =>
    obtain ⟨later, made⟩ := aside_serves took trivial
    exact ⟨later, made, rfl⟩
  | run call =>
    obtain ⟨later, made⟩ := aside_serves took trivial
    exact ⟨later, made, rfl⟩
  | lock call =>
    simp only [EventQueue.step] at took
    split at took
    · rename_i nobody
      have empty : t.inside = [] := List.head?_eq_none_iff.mp (Option.isNone_iff_eq_none.mp nobody)
      obtain ⟨stage, waits, -⟩ := Option.bind_eq_some_iff.mp took
      have free : t.pendingLock.lock = 0 := by
        rw [excl.lock, empty]
        rfl
      have waits : t.away[call]?.bind Away.locked = some stage := waits
      exact ⟨{ t with
        pendingLock := ⟨1⟩, inside := stage :: t.inside, away := t.away.eraseIdx call },
        by simp [QueueMove.threaded, EventThreads.step, waits, AtomicLock.atomicCas, free],
        by simp [QueueMove.threaded, spins, free]⟩
    · cases took
  | next allocates =>
    obtain ⟨stage, head, took⟩ := Option.bind_eq_some_iff.mp took
    have found : t.inside[0]? = some stage := List.head?_eq_getElem?.symm.trans head
    by_cases leaves : ∃ pendingTasks, stage = .unlock pendingTasks
    · obtain ⟨pendingTasks, rfl⟩ := leaves
      obtain ⟨later, made, -⟩ := excl.leave allocates found
      exact ⟨later, made, rfl⟩
    · have made : t.step (.next 0 allocates) = _ :=
        step_next found fun pendingTasks same => leaves ⟨pendingTasks, same⟩
      rw [asQueue, show t.inside.head? = some stage from head] at took
      rw [took] at made
      exact ⟨_, made, rfl⟩
  | clear =>
    simp only [EventQueue.step] at took
    split at took
    · rename_i quiet
      obtain ⟨standing, nobody, done⟩ := quiet
      have empty : t.inside = [] := List.head?_eq_none_iff.mp (Option.isNone_iff_eq_none.mp nobody)
      refine ⟨_, if_pos ⟨standing, ?_, done⟩, rfl⟩
      rw [empty]
      rfl
    · cases took

/-- A call inside has no next step just when the one at the heap of the queue has none. -/
theorem Exclusive.stuck_iff (excl : t.Exclusive) (inside : call < t.inside.length)
    (allocates : Bool) :
    t.step (.next call allocates) = none ↔ t.asQueue.step (.next allocates) = none := by
  obtain ⟨first, -⟩ := excl.only (List.getElem?_eq_getElem inside)
  subst first
  constructor
  · intro stuck
    apply Option.eq_none_iff_forall_ne_some.mpr
    intro q took
    obtain ⟨later, made, -⟩ := excl.serves took
    cases stuck.symm.trans made
  · intro stuck
    apply Option.eq_none_iff_forall_ne_some.mpr
    intro later made
    have took : t.asQueue.step (.next allocates) = some later.asQueue := (excl.step made).2
    cases stuck.symm.trans took

private theorem plain_threaded (move : QueueMove τ) : move.threaded.plain = move := by
  cases move <;> rfl

private theorem Exclusive.follows {moves : List (QueueMove τ)} (excl : t.Exclusive)
    (ran : Runs.run EventQueue.step t.asQueue moves = some q) :
    ∃ later, Runs.run EventThreads.step t (moves.map QueueMove.threaded) = some later ∧
      later.asQueue = q := by
  induction moves generalizing t with
  | nil =>
    cases ran
    exact ⟨t, rfl, rfl⟩
  | cons move rest ih =>
    obtain ⟨mid, took, onward⟩ := run_cons.mp ran
    obtain ⟨next, made, moved⟩ := excl.serves took
    obtain ⟨kept, same⟩ := excl.step made
    rw [moved, plain_threaded] at same
    cases took.symm.trans same
    obtain ⟨later, followed, reached⟩ := ih kept onward
    exact ⟨later, run_cons.mpr ⟨next, made, followed⟩, reached⟩

/-! ## The threads and the queue -/

/-- A run of any number of threads, each round of `Enter` and `Leave` one `atomic_cas`, is a run
of the queue when the rounds that spin are left out. So at most one call is at the heap, and
whoever comes to `Leave` has the lock. The step at the heap that touches a destroyed event, which
has no result, is the same one in both. -/
theorem threads_run_queue (memory : Nat → Nat) (idx : Nat → Int32) (moves : List (ThreadMove τ))
    (ran : run step (ctor memory idx) moves = some later) :
    later.Exclusive ∧
      run EventQueue.step (EventQueue.ctor memory idx) (taken (ctor memory idx) moves) =
        some later.asQueue ∧
      ∀ call < later.inside.length, ∀ allocates,
        (later.step (.next call allocates) = none ↔
          later.asQueue.step (.next allocates) = none) := by
  obtain ⟨excl, followed⟩ := (ctor_exclusive memory idx).run ran
  refine ⟨excl, followed, ?_⟩
  intro call inside allocates
  exact excl.stuck_iff inside allocates

/-- A task is posted for 15 ms while `ProcessTasks` spins twice, which then finds it not due. -/
def contendedMoves : List (ThreadMove Nat) :=
  List.flatten [
    [.processTasks tenMs, .postDelayedTask 7 tenMs 5 3, .enter 0, .enter 0, .next 0 true],
    .enter 0 :: List.replicate 3 (.next 0 true),
    .enter 1 :: List.replicate 3 (.next 0 true)]

theorem contendedMoves_on_queue :
    (taken (ctor (fun _ => 0) fun _ => 0) contendedMoves).length + 2 = contendedMoves.length ∧
      ∃ t, run step (ctor (fun _ => 0) fun _ => 0) contendedMoves = some t ∧ t.Exclusive ∧
        run EventQueue.step (EventQueue.ctor (fun _ => 0) fun _ => 0)
          (taken (ctor (fun _ => 0) fun _ => 0) contendedMoves) = some t.asQueue ∧
        ∀ call < t.inside.length, ∀ allocates,
          (t.step (.next call allocates) = none ↔
            t.asQueue.step (.next allocates) = none) := by
  refine ⟨by decide +kernel, ?_⟩
  have ends : (run step (ctor (fun _ => 0) fun _ => 0) contendedMoves).isSome = true := by
    decide +kernel
  obtain ⟨t, ran⟩ := Option.isSome_iff_exists.mp ends
  exact ⟨t, ran, threads_run_queue _ _ contendedMoves ran⟩

/-- The threads can make every run of the queue, none of them spinning. -/
theorem queue_runs_on_threads (memory : Nat → Nat) (idx : Nat → Int32)
    (moves : List (QueueMove τ))
    (ran : run EventQueue.step (EventQueue.ctor memory idx) moves = some q) :
    ∃ later, run step (ctor memory idx) (moves.map QueueMove.threaded) = some later ∧
      later.asQueue = q :=
  (ctor_exclusive memory idx).follows ran

theorem quietMoves_on_threads :
    ∃ t, run step (ctor (fun _ => 0) fun _ => 0) (quietMoves.map QueueMove.threaded) = some t ∧
      run EventQueue.step (EventQueue.ctor (fun _ => 0) fun _ => 0) quietMoves =
        some t.asQueue := by
  have ends : (run EventQueue.step (EventQueue.ctor (fun _ => 0) fun _ => 0)
      quietMoves).isSome = true := by
    decide +kernel
  obtain ⟨q, ran⟩ := Option.isSome_iff_exists.mp ends
  obtain ⟨t, followed, reached⟩ := queue_runs_on_threads _ _ quietMoves ran
  exact ⟨t, followed, reached ▸ ran⟩

end EventThreads

end TcpCongestion
