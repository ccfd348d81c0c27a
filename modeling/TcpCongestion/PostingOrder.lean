import Mathlib.Data.List.Sort
import Mathlib.Data.Multiset.Sort
import TcpCongestion.TaskScheduling

/-! Whether the tasks one thread posts are run in the order it posted them. The heap
compares due times only, so it does not tell apart the posts of one millisecond. -/
namespace TcpCongestion.PostingOrder

open Runs Scheduler

/-- The scheduler with the tasks that have been run, by whichever call, in the order they
were started. -/
structure Logged where
  scheduler : Scheduler
  log : List Nat

/-- The task a move starts. -/
def started (s : Scheduler) : Move → List Nat
  | .runTask i => (s.calls[i]?.bind fun call => call.pendingTasks.head?).toList
  | .postTask _ | .postDelayedTask _ _ | .processTasks _ => []

def step (l : Logged) (move : Move) : Option Logged :=
  (l.scheduler.step move).map fun next => ⟨next, l.log ++ started l.scheduler move⟩

def start (memory : Nat → TaskEvent Nat) (idx : TaskEvent Nat → Int) : Logged :=
  ⟨Scheduler.start memory idx, []⟩

/-- The tasks that have been run, and after them those that a call has taken and not yet
run. -/
def Logged.taken (l : Logged) : List Nat := l.log ++ l.scheduler.calls.flatMap Call.pendingTasks

section
-- the numbers of the tasks of one thread
variable (mine : Nat → Bool)

/-- The thread uses `PostTask` only, and the clock it reads never goes back. -/
def Posts (l : Logged) : Move → Prop
  | .postTask now => mine l.scheduler.posts.length = true →
    ∀ task < l.scheduler.posts.length, mine task = true →
      l.scheduler.due task ≤ now.value.toNat
  | .postDelayedTask _ _ => mine l.scheduler.posts.length = false
  | .processTasks _ | .runTask _ => True

/-- The thread does not post in the millisecond of a task of its own that still waits, and
no call of `ProcessTasks` runs one of its tasks before the earlier calls are through with
theirs. -/
def Spaced (l : Logged) : Move → Prop
  | .postTask now => mine l.scheduler.posts.length = true →
    ∀ task ∈ l.scheduler.waiting, mine task = true → l.scheduler.due task ≠ now.value.toNat
  | .runTask i => ∀ task ∈ started l.scheduler (.runTask i), mine task = true →
    ∀ call ∈ l.scheduler.calls.take i, ∀ other ∈ call.pendingTasks, mine other = false
  | .postDelayedTask _ _ | .processTasks _ => True

instance (l : Logged) : (move : Move) → Decidable (Posts mine l move)
  | .postTask now => inferInstanceAs (Decidable (_ → ∀ task < _, _ → _ ≤ now.value.toNat))
  | .postDelayedTask _ _ => inferInstanceAs (Decidable (_ = _))
  | .processTasks _ | .runTask _ => instDecidableTrue

instance (l : Logged) : (move : Move) → Decidable (Spaced mine l move)
  | .postTask now => inferInstanceAs (Decidable (_ → ∀ task ∈ _, _ → _ ≠ now.value.toNat))
  | .runTask i => inferInstanceAs (Decidable (∀ task ∈ started l.scheduler (.runTask i), _ →
      ∀ call ∈ l.scheduler.calls.take i, ∀ other ∈ call.pendingTasks, _))
  | .postDelayedTask _ _ | .processTasks _ => instDecidableTrue

/-- The tasks of the thread that have been run are the first it posted, in that order. -/
def InOrder (l : Logged) : Prop :=
  l.log.filter mine <+: (List.range l.scheduler.posts.length).filter mine

instance (l : Logged) : Decidable (InOrder mine l) := inferInstanceAs (Decidable (_ <+: _))

/-- Among the tasks of the thread, those taken come in order and before those that wait, and
of two that wait the earlier post is due earlier. -/
structure Ordered (l : Logged) : Prop where
  inv : l.scheduler.Inv
  conserved : l.scheduler.waiting + (l.taken : Multiset Nat) =
    Multiset.range l.scheduler.posts.length
  sorted : (l.taken.filter mine).Pairwise (· < ·)
  ahead : ∀ a ∈ l.taken, ∀ b ∈ l.scheduler.waiting, mine a = true → mine b = true → a < b
  spaced : ∀ a ∈ l.scheduler.waiting, ∀ b ∈ l.scheduler.waiting, mine a = true → mine b = true →
    a < b → l.scheduler.due a < l.scheduler.due b

end

variable {mine : Nat → Bool} {l : Logged}

private theorem start_ordered (memory : Nat → TaskEvent Nat) (idx : TaskEvent Nat → Int) :
    Ordered mine (start memory idx) where
  inv := start_inv memory idx
  conserved := rfl
  sorted := List.Pairwise.nil
  ahead _ member := absurd member List.not_mem_nil
  spaced _ member := absurd member (Multiset.notMem_zero _)

/-- Sorting what waits behind what was taken gives all the tasks of the thread. -/
theorem Ordered.inOrder (held : Ordered mine l) : InOrder mine l := by
  let rest := (l.scheduler.waiting.filter fun task => mine task = true).sort (· ≤ ·)
  have own : ∀ tasks : List Nat, (tasks.filter mine : Multiset Nat) =
      (tasks : Multiset Nat).filter fun task => mine task = true := fun tasks => by simp
  have members : (l.taken.filter mine ++ rest).Perm
      ((List.range l.scheduler.posts.length).filter mine) := by
    rw [← Multiset.coe_eq_coe, ← Multiset.coe_add, Multiset.sort_eq, Multiset.add_comm,
      own, own, ← Multiset.filter_add, held.conserved]
    rfl
  have sorted : (l.taken.filter mine ++ rest).Pairwise (· ≤ ·) := by
    refine List.pairwise_append.mpr ⟨held.sorted.imp Nat.le_of_lt, Multiset.pairwise_sort _ _, ?_⟩
    intro a first b second
    obtain ⟨taken, own⟩ := List.mem_filter.mp first
    obtain ⟨waits, also⟩ := Multiset.mem_filter.mp ((Multiset.mem_sort _).mp second)
    exact Nat.le_of_lt (held.ahead a taken b waits own also)
  have whole := members.eq_of_pairwise' sorted (List.pairwise_le_range.filter mine)
  rw [InOrder, ← whole, Logged.taken, List.filter_append, List.append_assoc]
  exact List.prefix_append _ _

private theorem Ordered.taken_known (held : Ordered mine l) (member : task ∈ l.taken) :
    task < l.scheduler.posts.length := by
  rw [← Multiset.mem_range, ← held.conserved]
  exact Multiset.mem_add.mpr (Or.inr member)

private theorem Ordered.posted (held : Ordered mine l) (posted : l.scheduler.Posted next post)
    (inv : next.Inv)
    (later : mine l.scheduler.posts.length = true →
      ∀ task ∈ l.scheduler.waiting, mine task = true → l.scheduler.due task < post.due) :
    Ordered mine ⟨next, l.log⟩ := by
  have taken : Logged.taken ⟨next, l.log⟩ = l.taken := by rw [Logged.taken, posted.calls]; rfl
  have new : next.due l.scheduler.posts.length = post.due := by simp [due, posted.posts]
  have old : ∀ task ∈ l.scheduler.waiting, next.due task = l.scheduler.due task :=
    fun task member => due_append posted.posts (held.inv.waiting_known member)
  refine ⟨inv, ?_, taken ▸ held.sorted, ?_, ?_⟩
  · rw [taken, posted.waiting, Multiset.cons_add, held.conserved, posted.posts,
      List.length_append, List.length_singleton, Multiset.range_succ]
  · intro a first b second own also
    rw [taken] at first
    rcases Multiset.mem_cons.mp (posted.waiting ▸ second) with rfl | before
    · exact held.taken_known first
    · exact held.ahead a first b before own also
  · intro a first b second own also less
    rcases Multiset.mem_cons.mp (posted.waiting ▸ first) with rfl | before
    · -- nothing has a larger number than the new task
      have bound := inv.waiting_known second
      rw [posted.posts, List.length_append, List.length_singleton] at bound
      omega
    · rcases Multiset.mem_cons.mp (posted.waiting ▸ second) with rfl | already
      · rw [new, old a before]
        exact later also a before own
      · rw [old a before, old b already]
        exact held.spaced a before b already own also less

/-- A call takes the tasks of the thread that are due, and those were posted before the ones
it leaves. -/
theorem Ordered.drained (held : Ordered mine l) (drained : l.scheduler.Drained next timeMs call)
    (inv : next.Inv) : Ordered mine ⟨next, l.log⟩ := by
  have taken : Logged.taken ⟨next, l.log⟩ = l.taken ++ call.pendingTasks := by
    simp [Logged.taken, drained.calls]
  have pending : ∀ task ∈ call.pendingTasks, task ∈ l.scheduler.waiting ∧
      l.scheduler.due task ≤ timeMs.value.toNat := by
    intro task member
    rw [← Multiset.mem_coe, drained.taken] at member
    exact Multiset.mem_filter.mp member
  have left : ∀ task ∈ next.waiting, task ∈ l.scheduler.waiting ∧
      ¬ l.scheduler.due task ≤ timeMs.value.toNat := by
    intro task member
    rw [drained.left] at member
    exact Multiset.mem_filter.mp member
  have unique : call.pendingTasks.Nodup := by
    have all : (l.scheduler.waiting + (l.taken : Multiset Nat)).Nodup :=
      held.conserved ▸ Multiset.nodup_range _
    rw [← Multiset.coe_nodup, drained.taken]
    exact (Multiset.nodup_add.mp all).1.filter _
  -- of two tasks of the thread that wait, the one due first was posted first
  have earlier : ∀ a ∈ l.scheduler.waiting, ∀ b ∈ l.scheduler.waiting, mine a = true →
      mine b = true → a ≠ b → l.scheduler.due a ≤ l.scheduler.due b → a < b := by
    intro a first b second own also differ before
    by_contra less
    have reversed := held.spaced b second a first also own (by omega)
    omega
  refine ⟨inv, ?_, ?_, ?_, ?_⟩
  · rw [taken, ← Multiset.coe_add, drained.left, drained.taken, drained.posts, ← held.conserved,
      Multiset.add_comm, Multiset.add_assoc, Multiset.filter_add_not, Multiset.add_comm]
  · rw [taken, List.filter_append]
    refine List.pairwise_append.mpr ⟨held.sorted, ?_, fun a first b second => ?_⟩
    · refine List.pairwise_filter.mpr ((drained.ordered.and unique).imp_of_mem ?_)
      rintro a b first second ⟨before, differ⟩ own also
      exact earlier a (pending a first).1 b (pending b second).1 own also differ before
    · obtain ⟨already, own⟩ := List.mem_filter.mp first
      obtain ⟨new, also⟩ := List.mem_filter.mp second
      exact held.ahead a already b (pending b new).1 own also
  · intro a first b second own also
    obtain ⟨waits, late⟩ := left b second
    rw [taken] at first
    rcases List.mem_append.mp first with already | new
    · exact held.ahead a already b waits own also
    · obtain ⟨waited, early⟩ := pending a new
      refine earlier a waited b waits own also ?_ (by omega)
      rintro rfl
      exact late early
  · intro a first b second own also less
    rw [due_congr drained.posts]
    exact held.spaced a (left a first).1 b (left b second).1 own also less

/-- The task that is run comes to stand before those the earlier calls have still to run. -/
theorem ran_taken (took : l.scheduler.step (.runTask i) = some next) :
    ∃ task rest, started l.scheduler (.runTask i) = [task] ∧
      l.taken = l.log ++ ((l.scheduler.calls.take i).flatMap Call.pendingTasks ++ task :: rest) ∧
      Logged.taken ⟨next, l.log ++ [task]⟩ =
        l.log ++ task :: ((l.scheduler.calls.take i).flatMap Call.pendingTasks ++ rest) := by
  obtain ⟨call, task, rest, held, pending, rfl⟩ := Scheduler.runTask_cases took
  have begins : started l.scheduler (.runTask i) = [task] := by
    rw [started, held, Option.bind_some, pending]
    rfl
  obtain ⟨inside, rfl⟩ := List.getElem?_eq_some_iff.mp held
  have split : l.scheduler.calls = l.scheduler.calls.take i ++
      l.scheduler.calls[i] :: l.scheduler.calls.drop (i + 1) := by
    rw [List.cons_getElem_drop_succ, List.take_append_drop]
  refine ⟨task, rest ++ (l.scheduler.calls.drop (i + 1)).flatMap Call.pendingTasks, begins, ?_, ?_⟩
  · rw [Logged.taken]
    conv_lhs => rw [split, List.flatMap_append, List.flatMap_cons, pending]
    rfl
  · rw [Logged.taken]
    dsimp only
    rw [List.set_eq_take_append_cons_drop, if_pos inside]
    simp

private theorem Ordered.ran (held : Ordered mine l)
    (took : l.scheduler.step (.runTask i) = some next) (through : Spaced mine l (.runTask i)) :
    Ordered mine ⟨next, l.log ++ started l.scheduler (.runTask i)⟩ := by
  obtain ⟨task, rest, begins, before, after⟩ := ran_taken took
  have perm : (Logged.taken ⟨next, l.log ++ [task]⟩).Perm l.taken := by
    rw [before, after]
    exact (List.perm_middle.symm).append_left l.log
  have mineFirst : (Logged.taken ⟨next, l.log ++ [task]⟩).filter mine = l.taken.filter mine := by
    rw [before, after]
    simp only [List.filter_append, List.filter_cons]
    by_cases own : mine task = true
    · -- then the earlier calls have none of the thread's tasks left
      have none : ((l.scheduler.calls.take i).flatMap Call.pendingTasks).filter mine = [] := by
        refine List.filter_eq_nil_iff.mpr fun other member => ?_
        obtain ⟨call, among, pending⟩ := List.mem_flatMap.mp member
        rw [through task (begins ▸ List.mem_singleton_self _) own call among other pending]
        exact Bool.false_ne_true
      simp only [if_pos own, none, List.nil_append]
    · simp only [if_neg own]
  obtain ⟨thread, posts, _⟩ := runTask_spec took
  have waits : next.waiting = l.scheduler.waiting := by rw [waiting, thread]; rfl
  rw [begins]
  constructor
  · exact runTask_inv held.inv took
  · rw [Multiset.coe_eq_coe.mpr perm, waits, posts]
    exact held.conserved
  · rw [mineFirst]
    exact held.sorted
  · intro a member
    rw [waits]
    exact held.ahead a (perm.mem_iff.mp member)
  · rw [waits, due_congr posts]
    exact held.spaced

private theorem Ordered.step (held : Ordered mine l) (posts : Posts mine l move)
    (spaced : Spaced mine l move) (took : step l move = some after) : Ordered mine after := by
  obtain ⟨next, moved, rfl⟩ := Option.map_eq_some_iff.mp took
  cases move with
  | postTask now =>
    obtain ⟨posted, inv⟩ := post_step held.inv moved
    rw [started, List.append_nil]
    refine held.posted posted inv fun new task waits own => ?_
    have before := posts new task (held.inv.waiting_known waits) own
    exact Nat.lt_of_le_of_ne before (spaced new task waits own)
  | postDelayedTask now timeMs =>
    obtain ⟨posted, inv⟩ := post_step held.inv moved
    rw [started, List.append_nil]
    exact held.posted posted inv fun new => absurd (posts.symm.trans new) Bool.false_ne_true
  | processTasks timeMs =>
    obtain ⟨call, drained, inv⟩ := process_step held.inv moved
    rw [started, List.append_nil]
    exact held.drained drained inv
  | runTask i => exact held.ran moved spaced

/-- Whatever the other threads post, a thread's tasks run in the order it posted them, if no
two of them that wait together were posted in one millisecond and the calls of `ProcessTasks`
run them in the order in which they took them. -/
theorem posting_order_kept (mine : Nat → Bool) (memory : Nat → TaskEvent Nat)
    (idx : TaskEvent Nat → Int) (moves : List Move)
    (posts : Along step (Posts mine) (start memory idx) moves)
    (spaced : Along step (Spaced mine) (start memory idx) moves) :
    Always step (InOrder mine) (start memory idx) moves := by
  have both : Along step (fun l move => Posts mine l move ∧ Spaced mine l move)
      (start memory idx) moves :=
    fun before event part mid reached =>
      ⟨posts before event part mid reached, spaced before event part mid reached⟩
  have always := always_of_along (start_ordered memory idx)
    (fun _ _ _ held good took => held.step good.1 good.2 took) both
  intro before part mid reached
  exact (always before part mid reached).inOrder

/-- The thread's tasks are 0, 2 and 3. It posts the last while a call is running the others,
and another thread posts in the same millisecond as it does. -/
def interleaved : List Move :=
  [.postTask (.early 10), .postDelayedTask (.early 11) 0, .postTask (.early 11),
    .processTasks (.early 11), .runTask 0, .postTask (.early 11), .runTask 0,
    .processTasks (.early 11), .runTask 0, .runTask 1]

theorem interleaved_in_order :
    Always step (InOrder (· ≠ 1)) (start (fun _ => ⟨0, 0⟩) (fun _ => -1)) interleaved :=
  posting_order_kept (· ≠ 1) _ _ interleaved (by decide +kernel) (by decide +kernel)

/-- Three posts in one millisecond, and a call that runs them. -/
def sameMillisecond : List Move :=
  [.postTask (.early 7), .postTask (.early 7), .postTask (.early 7),
    .processTasks (.early 7), .runTask 0, .runTask 0, .runTask 0]

/-- Two posts in different milliseconds, each taken by a call of its own, of which the later one
runs its task first. -/
def overlappingCalls : List Move :=
  [.postTask (.early 7), .postTask (.early 8), .processTasks (.early 7),
    .processTasks (.early 8), .runTask 1, .runTask 0]

/-- Of three tasks posted in one millisecond the second and the third change places when the
first is taken from the heap; and calls that overlap can change the places of tasks that were
not. -/
theorem same_millisecond_swapped :
    (Along step (Posts fun _ => true) (start (fun _ => ⟨0, 0⟩) (fun _ => -1)) sameMillisecond ∧
      ∃ l, run step (start (fun _ => ⟨0, 0⟩) (fun _ => -1)) sameMillisecond = some l ∧
        l.log = [0, 2, 1] ∧ ¬ InOrder (fun _ => true) l) ∧
    Along step (Posts fun _ => true) (start (fun _ => ⟨0, 0⟩) (fun _ => -1)) overlappingCalls ∧
      ∃ l, run step (start (fun _ => ⟨0, 0⟩) (fun _ => -1)) overlappingCalls = some l ∧
        l.log = [1, 0] ∧ ¬ InOrder (fun _ => true) l := by
  have evaluated : ∀ moves log, (run step (start (fun _ => ⟨0, 0⟩) (fun _ => -1)) moves).any
      (fun l => decide (l.log = log ∧ ¬ InOrder (fun _ => true) l)) = true →
      ∃ l, run step (start (fun _ => ⟨0, 0⟩) (fun _ => -1)) moves = some l ∧ l.log = log ∧
        ¬ InOrder (fun _ => true) l := by
    intro moves log facts
    obtain ⟨l, ran, both⟩ := Option.any_eq_true _ _ |>.mp facts
    exact ⟨l, ran, of_decide_eq_true both⟩
  exact ⟨⟨by decide +kernel, evaluated _ _ (by decide +kernel)⟩,
    by decide +kernel, evaluated _ _ (by decide +kernel)⟩

end TcpCongestion.PostingOrder
