import TcpCongestion.MinHeap32Proofs
import TcpCongestion.PostingOrder

/-! The task queue over the heap in the integers it is written in. While fewer than 2^31 tasks
wait it makes the steps of the queue over the heap without bounds, so what is true of every run
of that one is true of its own runs. -/
namespace TcpCongestion

open HeapOrder Runs Words

/-- A heap with elements is smaller after a pop. -/
theorem MinHeap32.pop_lt [DecidableEq α] {s : MinHeap32 α} (occupied : s.isEmpty = false)
    (pops : s.pop elem = some (popped, e)) : popped.n.toNat < s.n.toNat := by
  have nonempty : s.n ≠ 0 := of_decide_eq_false occupied
  rw [pop, if_pos nonempty] at pops
  simp only [Option.bind_eq_bind, Option.bind_eq_some_iff, Option.some.injEq,
    Prod.mk.injEq] at pops
  obtain ⟨_, _, _, _, _, _, _, _, rfl, _⟩ := pops
  dsimp only
  rw [toNat_pred nonempty]
  exact Nat.sub_one_lt (mt toNat_eq_zero.mp nonempty)

structure NetworkThread32 (τ : Type) where
  sHeap : MinHeap32 (TaskEvent τ)

namespace NetworkThread32

variable [DecidableEq τ]

def postDelayedTask (s : NetworkThread32 τ) (task : τ) (now : Reading) (timeMs : UInt32) :
    Option (NetworkThread32 τ) := do
  let future := now.value + timeMs.toUInt64
  let (sHeap, _) ← s.sHeap.push TaskEvent.element ⟨future, task⟩ true
  some { s with sHeap := sHeap }

def postTask (s : NetworkThread32 τ) (task : τ) (now : Reading) : Option (NetworkThread32 τ) :=
  s.postDelayedTask task now 0

/-- The part of `ProcessTasks` that holds `pending_lock_`. -/
def takePending (s : NetworkThread32 τ) (timeMs : UInt64) :
    Option (NetworkThread32 τ × List τ) :=
  if occupied : s.sHeap.isEmpty = false then
    match s.sHeap.top with
    | some (some event) =>
      if event.delay ≤ timeMs then
        match popped : s.sHeap.pop TaskEvent.element with
        | some (sHeap, _) => do
          have : sHeap.n.toNat < s.sHeap.n.toNat := MinHeap32.pop_lt occupied popped
          let (s, pendingTasks) ← takePending { s with sHeap := sHeap } timeMs
          some (s, event.task :: pendingTasks)
        | none => none
      else
        some (s, [])
    | _ => none
  else
    some (s, [])
termination_by s.sHeap.n.toNat

end NetworkThread32

namespace NetworkThread32

/-- The same queue without bounds on the numbers. -/
def wide (s : NetworkThread32 τ) : NetworkThread τ := ⟨s.sHeap.wide⟩

private theorem isEmpty_wide (s : NetworkThread32 τ) : s.wide.sHeap.isEmpty = s.sHeap.isEmpty :=
  decide_eq_decide.mpr MinHeap32.wide_n_eq_zero

private theorem top_wide (s : NetworkThread32 τ) : s.wide.sHeap.top = s.sHeap.top := by
  have first : s.wide.sHeap.read 0 = s.sHeap.read 0 := Cells32.read_wide s.sHeap.toCells32 0
  rw [MinHeap.top, MinHeap32.top, first]
  exact if_congr (not_congr MinHeap32.wide_n_eq_zero) rfl rfl

variable [DecidableEq τ]

private theorem postDelayedTask_wide {s : NetworkThread32 τ} (small : s.sHeap.n.toNat + 1 < 2 ^ 31)
    (task : τ) (now : Reading) (timeMs : UInt32) :
    (s.postDelayedTask task now timeMs).map wide = s.wide.postDelayedTask task now timeMs :=
  map_bind_eq (MinHeap32.push_wide small true) fun _ _ => rfl

private theorem takePending_wide {s : NetworkThread32 τ} (small : s.sHeap.n.toNat < 2 ^ 31)
    (timeMs : UInt64) :
    (s.takePending timeMs).map (fun result => (result.1.wide, result.2)) =
      s.wide.takePending timeMs := by
  have empty := isEmpty_wide s
  have first := top_wide s
  have pops : (s.sHeap.pop TaskEvent.element).map (fun result => (result.1.wide, result.2)) =
      s.sHeap.wide.pop TaskEvent.element := MinHeap32.pop_wide small
  fun_induction takePending s timeMs with
  | case1 s occupied event top due sHeap out popped smaller ih =>
    rw [popped] at pops
    rw [NetworkThread.takePending, dif_pos (empty.trans occupied), first, top]
    dsimp only
    rw [if_pos due]
    split
    · rename_i again
      cases pops.trans again
      have fewer : sHeap.n.toNat < 2 ^ 31 := smaller.trans small
      exact map_bind_eq (ih fewer (isEmpty_wide _) (top_wide _) (MinHeap32.pop_wide fewer))
        fun _ _ => rfl
    · rename_i again
      cases pops.trans again
  | case2 s occupied event top due popped =>
    rw [popped] at pops
    rw [NetworkThread.takePending, dif_pos (empty.trans occupied), first, top]
    dsimp only
    rw [if_pos due]
    split
    · rename_i again
      cases pops.trans again
    · rfl
  | case3 s occupied event top late =>
    rw [NetworkThread.takePending, dif_pos (empty.trans occupied), first, top]
    dsimp only
    rw [if_neg late]
    rfl
  | case4 s occupied none =>
    rw [NetworkThread.takePending, dif_pos (empty.trans occupied), first]
    split
    · rename_i event top
      exact absurd top (none event)
    · rfl
  | case5 s nothing =>
    rw [NetworkThread.takePending, dif_neg (empty ▸ nothing)]
    rfl

end NetworkThread32

/-! ## Whole runs -/

structure Scheduler32 where
  thread : NetworkThread32 Nat
  posts : List Post
  calls : List Call

namespace Scheduler32

def start (memory : Nat → TaskEvent Nat) (idx : TaskEvent Nat → Int32) : Scheduler32 :=
  { thread := ⟨MinHeap32.ctor memory idx⟩, posts := [], calls := [] }

def step (s : Scheduler32) : Move → Option Scheduler32
  | .postTask now => do
    let thread ← s.thread.postTask s.posts.length now
    some { s with thread := thread, posts := s.posts ++ [⟨now, 0⟩] }
  | .postDelayedTask now timeMs => do
    let thread ← s.thread.postDelayedTask s.posts.length now timeMs
    some { s with thread := thread, posts := s.posts ++ [⟨now, timeMs⟩] }
  | .processTasks timeMs => do
    let (thread, pendingTasks) ← s.thread.takePending timeMs.value
    let call : Call := ⟨timeMs, s.posts.length, pendingTasks, []⟩
    some { s with thread := thread, calls := s.calls ++ [call] }
  | .runTask i => do
    let call ← s.calls[i]?
    match call.pendingTasks with
    | [] => none
    | task :: rest =>
      let call := { call with pendingTasks := rest, ran := call.ran ++ [task] }
      some { s with calls := s.calls.set i call }

def wide (s : Scheduler32) : Scheduler := ⟨s.thread.wide, s.posts, s.calls⟩

/-- A task that is posted makes fewer than 2^31 that wait. -/
def Roomy (s : Scheduler32) : Move → Prop
  | .postTask _ | .postDelayedTask _ _ => s.thread.sHeap.n.toNat + 1 < 2 ^ 31
  | .processTasks _ | .runTask _ => True

structure Inv (s : Scheduler32) : Prop where
  wide : s.wide.Inv
  few : s.thread.sHeap.n.toNat < 2 ^ 31

variable {s next : Scheduler32}

private theorem card_waiting (s : Scheduler32) : s.wide.waiting.card = s.thread.sHeap.n.toNat := by
  rw [Scheduler.waiting, Multiset.card_map]
  exact card_contents ..

private theorem step_wide (few : s.thread.sHeap.n.toNat < 2 ^ 31) (roomy : s.Roomy move) :
    (s.step move).map wide = s.wide.step move := by
  cases move with
  | postTask now =>
    exact map_bind_eq (NetworkThread32.postDelayedTask_wide roomy _ now 0) fun _ _ => rfl
  | postDelayedTask now timeMs =>
    exact map_bind_eq (NetworkThread32.postDelayedTask_wide roomy _ now timeMs) fun _ _ => rfl
  | processTasks timeMs =>
    exact map_bind_eq (NetworkThread32.takePending_wide few timeMs.value) fun _ _ => rfl
  | runTask i =>
    refine map_bind_congr fun call => ?_
    cases call.pendingTasks <;> rfl

private theorem Inv.step {move : Move} (inv : s.Inv) (roomy : s.Roomy move)
    (took : s.step move = some next) : next.Inv := by
  have wider : s.wide.step move = some next.wide := by
    rw [← step_wide inv.few roomy, took]
    rfl
  refine ⟨Scheduler.step_inv inv.wide wider, ?_⟩
  rw [← card_waiting]
  have before := card_waiting s
  have few := inv.few
  cases move with
  | postTask | postDelayedTask =>
    rw [(Scheduler.post_step inv.wide wider).1.waiting, Multiset.card_cons, before]
    exact roomy
  | processTasks timeMs =>
    obtain ⟨call, drained, -⟩ := Scheduler.process_step inv.wide wider
    rw [drained.left]
    exact (Multiset.card_le_card (Multiset.filter_le _ _)).trans_lt (before ▸ few)
  | runTask i =>
    rw [Scheduler.waiting, (Scheduler.runTask_spec wider).1]
    exact before.trans_lt few

private theorem start_inv (memory : Nat → TaskEvent Nat) (idx : TaskEvent Nat → Int32) :
    (start memory idx).Inv :=
  ⟨Scheduler.start_inv memory _, show (0 : UInt32).toNat < 2 ^ 31 by decide⟩

/-- While fewer than 2^31 tasks wait, a run of the queue is the run of the one without bounds on
its numbers. -/
theorem run_wide (memory : Nat → TaskEvent Nat) (idx : TaskEvent Nat → Int32) (moves : List Move)
    (roomy : Along step Roomy (start memory idx) moves) :
    (run step (start memory idx) moves).map wide =
      run Scheduler.step (Scheduler.start memory fun event => (idx event).toInt) moves :=
  run_map (start_inv memory idx) (fun _ _ _ inv roomy took => inv.step roomy took)
    (fun _ _ inv roomy => step_wide inv.few roomy) roomy

theorem run_scheduled (memory : Nat → TaskEvent Nat) (idx : TaskEvent Nat → Int32)
    (moves : List Move) (roomy : Along step Roomy (start memory idx) moves)
    (ran : run step (start memory idx) moves = some s) : s.wide.Scheduled := by
  have kept : s.Inv := always_of_along (start_inv memory idx)
    (fun _ _ _ inv roomy took => inv.step roomy took) roomy _ List.prefix_rfl s ran
  exact kept.wide.scheduled

/-- The log of the tasks run is the one of that run too. -/
theorem run_logged (memory : Nat → TaskEvent Nat) (idx : TaskEvent Nat → Int32)
    (moves : List Move) (roomy : Along step Roomy (start memory idx) moves)
    (ran : run step (start memory idx) moves = some s) :
    ∃ l, run PostingOrder.step (PostingOrder.start memory fun event => (idx event).toInt) moves =
      some l ∧ l.scheduler = s.wide := by
  have logged : (run PostingOrder.step
      (PostingOrder.start memory fun event => (idx event).toInt) moves).map
        PostingOrder.Logged.scheduler =
      run Scheduler.step (Scheduler.start memory fun event => (idx event).toInt) moves := by
    have any : Along PostingOrder.step (fun _ _ => True)
        (PostingOrder.start memory fun event => (idx event).toInt) moves :=
      fun _ _ _ _ _ => trivial
    refine run_map (P := fun _ => True) trivial (fun _ _ _ _ _ _ => trivial)
      (fun l move _ _ => ?_) any
    rw [PostingOrder.step, Option.map_map]
    exact Option.map_id'
  have wider := run_wide memory idx moves roomy
  rw [ran, ← logged] at wider
  exact Option.map_eq_some_iff.mp wider.symm

end Scheduler32

end TcpCongestion
