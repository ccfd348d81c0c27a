import TcpCongestion.MinHeapProofs
import TcpCongestion.NetworkThread
import TcpCongestion.Runs

/-! The task queue over whole runs. Any thread may post at any time, a running task
included, and several calls of `ProcessTasks` may be between taking their tasks and
running them. The clock is read before each of these and may go back. -/
namespace TcpCongestion

open HeapOrder Runs

/-- The task may run at `timeMs`. -/
abbrev TaskEvent.Due (timeMs : UInt64) (event : TaskEvent τ) : Prop := event.delay ≤ timeMs

namespace NetworkThread

variable {s : NetworkThread τ}

/-- A queue as its own operations leave it. -/
def Valid (s : NetworkThread τ) : Prop :=
  s.sHeap.Valid TaskEvent.element fun event => event.delay.toNat

private theorem element_compares :
    (TaskEvent.element (τ := τ)).Compares fun event => event.delay.toNat := by
  intro a b
  simp [TaskEvent.element, UInt64.lt_iff_toNat_lt]

variable [DecidableEq τ]

private theorem postDelayedTask_spec (valid : s.Valid) (task : τ) (now : Reading)
    (timeMs : UInt32) : ∃ posted, s.postDelayedTask task now timeMs = some posted ∧ posted.Valid ∧
      posted.sHeap.elements = ⟨now.value + timeMs.toUInt64, task⟩ ::ₘ s.sHeap.elements := by
  obtain ⟨sHeap, pushes, holds, added⟩ := MinHeap.push_spec element_compares valid
    (e := ⟨now.value + timeMs.toUInt64, task⟩) rfl
  refine ⟨⟨sHeap⟩, ?_, holds, added⟩
  rw [postDelayedTask, pushes]
  rfl

private theorem takePending_empty (empty : s.sHeap.n = 0) (timeMs : UInt64) :
    s.takePending timeMs = some (s, []) := by
  have stops : s.sHeap.isEmpty ≠ false := by simp [MinHeap.isEmpty, empty]
  rw [takePending, dif_neg stops]

/-- The loop looks at the earliest task and goes on only if that one is due. -/
theorem takePending_top (valid : s.Valid) (occupied : s.sHeap.n ≠ 0)
    (pops : s.sHeap.pop TaskEvent.element = some (popped, out)) (timeMs : UInt64) :
    s.takePending timeMs =
      if (s.sHeap.p 0).Due timeMs then
        (takePending ⟨popped⟩ timeMs).map fun (left, pendingTasks) =>
          (left, (s.sHeap.p 0).task :: pendingTasks)
      else some (s, []) := by
  have goes : s.sHeap.isEmpty = false := by simp [MinHeap.isEmpty, occupied]
  have top : s.sHeap.top = some (some (s.sHeap.p 0)) := by
    have inside := valid.room
    rw [MinHeap.top, if_pos occupied, Cells.read_inside (by omega)]
    rfl
  rw [takePending, dif_pos goes, top]
  dsimp only
  refine if_congr Iff.rfl ?_ rfl
  split
  · rename_i again
    cases again.symm.trans pops
    cases takePending ⟨popped⟩ timeMs <;> rfl
  · rename_i again
    cases again.symm.trans pops

/-- The tasks taken are those that are due, earliest first, and the others stay. -/
theorem takePending_spec (valid : s.Valid) (timeMs : UInt64) :
    ∃ (left : NetworkThread τ) (taken : List (TaskEvent τ)),
      s.takePending timeMs = some (left, taken.map TaskEvent.task) ∧ left.Valid ∧
      (taken : Multiset (TaskEvent τ)) =
        s.sHeap.elements.filter (TaskEvent.Due timeMs) ∧
      left.sHeap.elements = s.sHeap.elements.filter (fun event => ¬ event.Due timeMs) ∧
      taken.Pairwise (fun a b => a.delay.toNat ≤ b.delay.toNat) := by
  induction size : s.sHeap.n using Nat.strong_induction_on generalizing s with
  | _ _ ih =>
    by_cases empty : s.sHeap.n = 0
    · have nothing : s.sHeap.elements = 0 := by simp [MinHeap.elements, empty, contents]
      exact ⟨s, [], takePending_empty empty timeMs, valid, by simp [nothing], by simp [nothing],
        List.Pairwise.nil⟩
    · obtain ⟨popped, pops, holds, smaller, split⟩ :=
        MinHeap.pop_spec element_compares valid empty
      rw [takePending_top valid empty pops]
      by_cases due : (s.sHeap.p 0).Due timeMs
      · obtain ⟨left, taken, returns, kept, dues, others, sorted⟩ :=
          ih popped.n (by omega) (s := ⟨popped⟩) holds rfl
        rw [if_pos due, returns]
        refine ⟨left, s.sHeap.p 0 :: taken, rfl, kept, ?_, ?_, ?_⟩
        · rw [split, Multiset.filter_cons_of_pos _ due, ← dues]
          rfl
        · have stays := Multiset.filter_cons_of_neg (p := fun event => ¬ event.Due timeMs)
            popped.elements (not_not.mpr due)
          rw [split, stays, others]
        · refine List.Pairwise.cons (fun event member => ?_) sorted
          have held : event ∈ popped.elements :=
            Multiset.mem_of_mem_filter (dues ▸ Multiset.mem_coe.mpr member)
          exact valid.top_le (split ▸ Multiset.mem_cons_of_mem held)
      · have late : ∀ event ∈ s.sHeap.elements, ¬ event.Due timeMs := by
          intro event member early
          exact due (UInt64.le_trans (UInt64.le_iff_toNat_le.mpr (valid.top_le member)) early)
        rw [if_neg due]
        refine ⟨s, [], rfl, valid, ?_, ?_, List.Pairwise.nil⟩
        · rw [Multiset.filter_eq_nil.mpr late]
          rfl
        · rw [Multiset.filter_eq_self.mpr late]

end NetworkThread

/-- A posted task, by the clock its poster read and the delay it asked for. -/
structure Post where
  now : Reading
  timeMs : UInt32
deriving DecidableEq

/-- Posting time plus delay. -/
def Post.due (post : Post) : Nat := post.now.value.toNat + post.timeMs.toNat

/-- A call of `ProcessTasks` that has let go of the lock. `before` is how many tasks had been
posted by then. -/
structure Call where
  timeMs : Reading
  before : Nat
  pendingTasks : List Nat
  ran : List Nat
deriving DecidableEq

/-- The tasks the call took, in the order it runs them. -/
def Call.tasks (call : Call) : List Nat := call.ran ++ call.pendingTasks

/-- A thread object, every task it was ever given and every call of `ProcessTasks`. Tasks are
numbered in the order their events enter the heap. -/
structure Scheduler where
  thread : NetworkThread Nat
  posts : List Post
  calls : List Call

/-- A step of one of the threads. A post is made by any of them, also by a running task, and
takes the lock once; so does a call of `ProcessTasks`, which then runs its tasks one by one. -/
inductive Move where
  | postTask (now : Reading)
  | postDelayedTask (now : Reading) (timeMs : UInt32)
  | processTasks (timeMs : Reading)
  | runTask (call : Nat)

namespace Scheduler

/-- A new thread object over whatever memory it is given. -/
def start (memory : Nat → TaskEvent Nat) (idx : TaskEvent Nat → Int) : Scheduler :=
  { thread := ⟨MinHeap.ctor memory idx⟩, posts := [], calls := [] }

def step (s : Scheduler) : Move → Option Scheduler
  | .postTask now => do
    let thread ← s.thread.postTask s.posts.length now
    some { s with thread := thread, posts := s.posts ++ [⟨now, 0⟩] }
  | .postDelayedTask now timeMs => do
    let thread ← s.thread.postDelayedTask s.posts.length now timeMs
    some { s with thread := thread, posts := s.posts ++ [⟨now, timeMs⟩] }
  | .processTasks timeMs => do
    let (thread, pendingTasks) ← s.thread.takePending timeMs.value
    let call : Call := ⟨timeMs, s.posts.length, pendingTasks, []⟩
    some { s with thread := thread, calls := s.calls ++ [call] }
  | .runTask i => do
    let call ← s.calls[i]?
    match call.pendingTasks with
    | [] => none
    | task :: rest =>
      let call := { call with pendingTasks := rest, ran := call.ran ++ [task] }
      some { s with calls := s.calls.set i call }

/-- When the task is due. -/
def due (s : Scheduler) (task : Nat) : Nat := (s.posts[task]?.map Post.due).getD 0

/-- The tasks in the heap. -/
def waiting (s : Scheduler) : Multiset Nat := s.thread.sHeap.elements.map TaskEvent.task

/-- The tasks that have been taken from the heap, those that have run included. -/
def taken (s : Scheduler) : List Nat := s.calls.flatMap Call.tasks

/-- What a post does. -/
structure Posted (s next : Scheduler) (post : Post) : Prop where
  posts : next.posts = s.posts ++ [post]
  waiting : next.waiting = s.posts.length ::ₘ s.waiting
  calls : next.calls = s.calls

/-- What `call` does while it holds the lock, having read `timeMs`. -/
structure Drained (s next : Scheduler) (timeMs : Reading) (call : Call) : Prop where
  time : call.timeMs = timeMs
  before : call.before = s.posts.length
  none : call.ran = []
  taken : (call.pendingTasks : Multiset Nat) =
    s.waiting.filter fun task => s.due task ≤ timeMs.value.toNat
  left : next.waiting = s.waiting.filter fun task => ¬ s.due task ≤ timeMs.value.toNat
  ordered : call.pendingTasks.Pairwise fun a b => s.due a ≤ s.due b
  posts : next.posts = s.posts
  calls : next.calls = s.calls ++ [call]

/-- What is always true of the tasks a call took. -/
structure Served (s : Scheduler) (call : Call) : Prop where
  timely : ∀ task ∈ call.tasks, s.due task ≤ call.timeMs.value.toNat
  earlier : ∀ task ∈ call.tasks, task < call.before
  ordered : call.tasks.Pairwise fun a b => s.due a ≤ s.due b

structure Inv (s : Scheduler) : Prop where
  valid : s.thread.Valid
  tagged : ∀ event ∈ s.thread.sHeap.elements, event.delay.toNat = s.due event.task
  conserved : s.waiting + (s.taken : Multiset Nat) = Multiset.range s.posts.length
  served : ∀ call ∈ s.calls, s.Served call

theorem start_inv (memory : Nat → TaskEvent Nat) (idx : TaskEvent Nat → Int) :
    (start memory idx).Inv where
  valid := MinHeap.ctor_valid _ _ memory idx
  tagged _ member := absurd member (Multiset.notMem_zero _)
  conserved := rfl
  served _ member := absurd member List.not_mem_nil

/-- A later post changes no due time. -/
theorem due_append {s next : Scheduler} (posts : next.posts = s.posts ++ more)
    (known : task < s.posts.length) : next.due task = s.due task := by
  rw [due, due, posts, List.getElem?_append_left known]

theorem due_congr {s next : Scheduler} (posts : next.posts = s.posts) : next.due = s.due := by
  funext task
  rw [due, due, posts]

theorem Inv.waiting_known {s : Scheduler} (inv : s.Inv) (member : task ∈ s.waiting) :
    task < s.posts.length := by
  rw [← Multiset.mem_range, ← inv.conserved]
  exact Multiset.mem_add.mpr (Or.inl member)

private theorem Inv.taken_known {s : Scheduler} (inv : s.Inv) (held : call ∈ s.calls)
    (member : task ∈ call.tasks) : task < s.posts.length := by
  rw [← Multiset.mem_range, ← inv.conserved]
  exact Multiset.mem_add.mpr (Or.inr (List.mem_flatMap.mpr ⟨call, held, member⟩))

private theorem Served.append {s next : Scheduler} (served : s.Served call)
    (posts : next.posts = s.posts ++ more) (known : ∀ task ∈ call.tasks, task < s.posts.length) :
    next.Served call where
  timely task member := by
    rw [due_append posts (known task member)]
    exact served.timely task member
  earlier := served.earlier
  ordered := by
    refine served.ordered.imp_of_mem fun {a b} first second before => ?_
    rwa [due_append posts (known a first), due_append posts (known b second)]

/-- The clock never comes near the end of the 64-bit range, so a due time is the sum it
stands for. -/
theorem future_toNat (now : Reading) (timeMs : UInt32) :
    (now.value + timeMs.toUInt64).toNat = (Post.mk now timeMs).due := by
  have early := now.nonneg
  have short := timeMs.toNat_lt
  rw [UInt64.toNat_add, UInt32.toNat_toUInt64, Post.due]
  exact Nat.mod_eq_of_lt (by omega)

private theorem post_spec {s : Scheduler} (inv : s.Inv) (now : Reading) (timeMs : UInt32) :
    ∃ next, s.step (.postDelayedTask now timeMs) = some next ∧
      s.Posted next ⟨now, timeMs⟩ ∧ next.Inv := by
  obtain ⟨thread, posts, valid, added⟩ :=
    NetworkThread.postDelayedTask_spec inv.valid s.posts.length now timeMs
  let next : Scheduler := { s with thread := thread, posts := s.posts ++ [⟨now, timeMs⟩] }
  have more : next.posts = s.posts ++ [⟨now, timeMs⟩] := rfl
  have joins : next.waiting = s.posts.length ::ₘ s.waiting := by
    rw [waiting, added, Multiset.map_cons]
    rfl
  refine ⟨next, ?_, ⟨rfl, joins, rfl⟩, valid, ?_, ?_, ?_⟩
  · rw [step, posts]
    rfl
  · intro event member
    rw [added, Multiset.mem_cons] at member
    rcases member with rfl | old
    · rw [future_toNat]
      simp [due, more]
    · rw [inv.tagged event old]
      exact (due_append more (inv.waiting_known (Multiset.mem_map_of_mem _ old))).symm
  · rw [joins, Multiset.cons_add, more, List.length_append, List.length_singleton,
      Multiset.range_succ, ← inv.conserved]
    rfl
  · intro call held
    exact (inv.served call held).append more fun task => inv.taken_known held

private theorem process_spec {s : Scheduler} (inv : s.Inv) (timeMs : Reading) :
    ∃ next call, s.step (.processTasks timeMs) = some next ∧ s.Drained next timeMs call ∧
      next.Inv := by
  obtain ⟨thread, events, takes, valid, dues, others, sorted⟩ :=
    NetworkThread.takePending_spec inv.valid timeMs.value
  let call : Call := ⟨timeMs, s.posts.length, events.map TaskEvent.task, []⟩
  let next : Scheduler := { s with thread := thread, calls := s.calls ++ [call] }
  have held : ∀ event ∈ events, event ∈ s.thread.sHeap.elements := fun event member =>
    Multiset.mem_of_mem_filter (dues ▸ Multiset.mem_coe.mpr member)
  -- a task is due when its event is
  have same : ∀ event ∈ s.thread.sHeap.elements,
      event.Due timeMs.value ↔ s.due event.task ≤ timeMs.value.toNat := by
    intro event member
    rw [← inv.tagged event member, TaskEvent.Due, UInt64.le_iff_toNat_le]
  have taken : (call.pendingTasks : Multiset Nat) =
      s.waiting.filter fun task => s.due task ≤ timeMs.value.toNat := by
    rw [← Multiset.map_coe, dues, waiting, Multiset.filter_map, Multiset.filter_congr same]
    rfl
  have left : next.waiting = s.waiting.filter fun task => ¬ s.due task ≤ timeMs.value.toNat := by
    rw [waiting, others, waiting, Multiset.filter_map,
      Multiset.filter_congr fun event member => not_congr (same event member)]
    rfl
  have ordered : call.pendingTasks.Pairwise fun a b => s.due a ≤ s.due b := by
    refine List.pairwise_map.mpr (sorted.imp_of_mem fun {a b} first second before => ?_)
    rwa [← inv.tagged a (held a first), ← inv.tagged b (held b second)]
  refine ⟨next, call, ?_, ⟨rfl, rfl, rfl, taken, left, ordered, rfl, rfl⟩, valid, ?_, ?_, ?_⟩
  · rw [step, takes]
    rfl
  · intro event member
    exact inv.tagged event (Multiset.mem_of_mem_filter (others ▸ member))
  · have appended : next.taken = s.taken ++ call.pendingTasks := by
      simp [next, Scheduler.taken, Call.tasks, call]
    rw [left, appended, ← Multiset.coe_add, taken, ← inv.conserved, Multiset.add_comm,
      Multiset.add_assoc, Multiset.filter_add_not, Multiset.add_comm]
  · intro other member
    rcases List.mem_append.mp member with old | new
    · exact (inv.served other old).append (List.append_nil s.posts).symm fun task =>
        inv.taken_known old
    · cases List.mem_singleton.mp new
      have mine : ∀ task ∈ call.tasks, task ∈ s.waiting.filter fun task =>
          s.due task ≤ timeMs.value.toNat := by
        intro task member
        rw [← taken]
        exact member
      refine ⟨fun task member => ?_, fun task member => ?_, ordered⟩
      · exact (Multiset.mem_filter.mp (mine task member)).2
      · exact inv.waiting_known (Multiset.mem_filter.mp (mine task member)).1

/-- What a post that was made has done. -/
theorem post_step {s : Scheduler} (inv : s.Inv)
    (took : s.step (.postDelayedTask now timeMs) = some next) :
    s.Posted next ⟨now, timeMs⟩ ∧ next.Inv := by
  obtain ⟨_, again, posted, holds⟩ := post_spec inv now timeMs
  cases again.symm.trans took
  exact ⟨posted, holds⟩

theorem process_step {s : Scheduler} (inv : s.Inv)
    (took : s.step (.processTasks timeMs) = some next) :
    ∃ call, s.Drained next timeMs call ∧ next.Inv := by
  obtain ⟨_, call, again, drained, holds⟩ := process_spec inv timeMs
  cases again.symm.trans took
  exact ⟨call, drained, holds⟩

/-- What running its tasks leaves alone in a call. -/
def fixed (call : Call) : Reading × Nat × List Nat := (call.timeMs, call.before, call.tasks)

/-- Running a task moves it from the one list of its call to the other. -/
theorem runTask_cases {s : Scheduler} (took : s.step (.runTask i) = some next) :
    ∃ call task rest, s.calls[i]? = some call ∧ call.pendingTasks = task :: rest ∧
      next = { s with
        calls := s.calls.set i { call with pendingTasks := rest, ran := call.ran ++ [task] } } := by
  rw [step, Option.bind_eq_bind, Option.bind_eq_some_iff] at took
  obtain ⟨call, held, runs⟩ := took
  split at runs
  · cases runs
  · rename_i task rest pending
    exact ⟨call, task, rest, held, pending, (Option.some.inj runs).symm⟩

theorem runTask_spec {s : Scheduler} (took : s.step (.runTask i) = some next) :
    next.thread = s.thread ∧ next.posts = s.posts ∧
      next.calls.map fixed = s.calls.map fixed := by
  obtain ⟨call, task, rest, held, pending, rfl⟩ := runTask_cases took
  refine ⟨rfl, rfl, ?_⟩
  have same : fixed { call with pendingTasks := rest, ran := call.ran ++ [task] } =
      fixed call := by
    simp [fixed, Call.tasks, pending]
  obtain ⟨inside, rfl⟩ := List.getElem?_eq_some_iff.mp held
  dsimp only
  rw [List.map_set, same, ← List.map_set, List.set_getElem_self]

private theorem Served.of_fixed {s next : Scheduler} (served : s.Served call)
    (posts : next.posts = s.posts) (same : fixed other = fixed call) : next.Served other := by
  simp only [fixed, Prod.mk.injEq] at same
  obtain ⟨time, before, tasks⟩ := same
  have dues := due_congr posts
  constructor
  · rw [time, tasks, dues]
    exact served.timely
  · rw [before, tasks]
    exact served.earlier
  · rw [tasks, dues]
    exact served.ordered

theorem runTask_inv {s : Scheduler} (inv : s.Inv) (took : s.step (.runTask i) = some next) :
    next.Inv := by
  obtain ⟨thread, posts, calls⟩ := runTask_spec took
  have dues := due_congr posts
  have tasks : next.calls.map Call.tasks = s.calls.map Call.tasks := by
    have third := congrArg (List.map fun record : Reading × Nat × List Nat => record.2.2) calls
    simpa [List.map_map, Function.comp_def, fixed] using third
  constructor
  · rw [thread]
    exact inv.valid
  · rw [thread, dues]
    exact inv.tagged
  · rw [waiting, taken, thread, List.flatMap_def, tasks, posts, ← List.flatMap_def]
    exact inv.conserved
  · intro call held
    have recorded : fixed call ∈ s.calls.map fixed := calls ▸ List.mem_map_of_mem held
    obtain ⟨old, member, same⟩ := List.mem_map.mp recorded
    exact (inv.served old member).of_fixed posts same.symm

theorem step_inv {s : Scheduler} (inv : s.Inv) (took : s.step move = some next) : next.Inv := by
  cases move with
  | postTask now => exact (post_step inv took).2
  | postDelayedTask now timeMs => exact (post_step inv took).2
  | processTasks timeMs =>
    obtain ⟨_, _, holds⟩ := process_step inv took
    exact holds
  | runTask i => exact runTask_inv inv took

/-- No task is lost, run twice, run early or run by a call that began before it was posted. -/
structure Scheduled (s : Scheduler) : Prop where
  conserved : s.waiting + (s.taken : Multiset Nat) = Multiset.range s.posts.length
  once : (s.calls.flatMap Call.ran).Nodup
  served : ∀ call ∈ s.calls, s.Served call

private theorem ran_sublist (calls : List Call) :
    (calls.flatMap Call.ran).Sublist (calls.flatMap Call.tasks) := by
  induction calls with
  | nil => exact List.Sublist.slnil
  | cons call rest ih =>
    rw [List.flatMap_cons, List.flatMap_cons]
    exact (List.sublist_append_left call.ran call.pendingTasks).append ih

theorem Inv.scheduled {s : Scheduler} (inv : s.Inv) : s.Scheduled := by
  refine ⟨inv.conserved, ?_, inv.served⟩
  have unique : (s.waiting + (s.taken : Multiset Nat)).Nodup :=
    inv.conserved ▸ Multiset.nodup_range _
  have takenOnce : s.taken.Nodup := Multiset.coe_nodup.mp (Multiset.nodup_add.mp unique).2.1
  exact takenOnce.sublist (ran_sublist s.calls)

end Scheduler

end TcpCongestion
