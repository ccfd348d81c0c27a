import Mathlib.Logic.Function.Basic
import TcpCongestion.RedisProofs

/-! The connections of one `redis-main` process side by side. `accept` gives each a descriptor of
its own, and each step is one callback of the loop: what it does to the variables and what there
is to see of the connection concerned. -/
namespace TcpCongestion.Redis
open Posix

/-- An accepted connection. `live` is whether the loop still calls `ReadFromClient` for it,
`view` is what there is to see of the calls made for it, and `counts` is `BytesRead` after each
of its reads. -/
structure Conn where
  fd : Int
  live : Bool
  view : List Effect
  counts : List Int32
  deriving DecidableEq

/-- Connections are told apart by a number of their own: the kernel hands a descriptor out again
once it is closed. -/
inductive Event where
  | acceptTcpHandler (id : Nat) (cfd : Int) (created : Bool)
  | readFromClient (id : Nat) (callback : Callback)

def Event.id : Event → Nat
  | .acceptTcpHandler id _ _ => id
  | .readFromClient id _ => id

structure Server where
  state : State
  conns : Nat → Option Conn

namespace Server

/-- The process when it enters its loop. -/
def start (listenfd : Int) (errno : Errno) : Server where
  state := { globals := {}, errno := errno, opened := [listenfd], effects := [] }
  conns := fun _ => none

/-- The connection after a callback, `after` being the state it left. -/
def called (conn : Conn) (after : State) (counts : List Int32) : Conn where
  fd := conn.fd
  live := decide (conn.fd ∈ after.opened)
  view := conn.view ++ after.seen
  counts := conn.counts ++ counts

/-- `accept` returns a descriptor that is not open. A connection that is not live has no
callback. -/
def step (listenfd : Int) (s : Server) : Event → Option Server
  | .acceptTcpHandler id cfd created =>
    if listenfd ∈ s.state.opened ∧ cfd ∉ s.state.opened ∧ (s.conns id).isNone then
      some { s with
        state := s.state.acceptTcpHandler listenfd cfd created
        conns := Function.update s.conns id (some ⟨cfd, created, [], []⟩) }
    else none
  | .readFromClient id callback =>
    match s.conns id with
    | none => none
    | some conn =>
      if conn.live then
        let before := { s.state with effects := [] }
        let after := State.readFromClient conn.fd callback.now before callback.inputs
        let counts := State.counts conn.fd callback.now before callback.inputs
        some { s with
          state := after
          conns := Function.update s.conns id (some (called conn after counts)) }
      else some s

/-- The callback of an event, if the loop makes it for this connection. -/
def made (s : Server) (id : Nat) : Event → List Callback
  | .acceptTcpHandler _ _ _ => []
  | .readFromClient other callback =>
    if other = id ∧ (s.conns id).any Conn.live then [callback] else []

/-- The callbacks the loop makes for a connection. -/
def served (listenfd : Int) (id : Nat) : Server → List Event → List Callback
  | _, [] => []
  | s, event :: rest => s.made id event ++
    match s.step listenfd event with
    | none => []
    | some next => served listenfd id next rest

end Server

/-! ## What the network offers -/

/-- What the network offers one connection. -/
def callbacks (id : Nat) : List Event → List Callback
  | [] => []
  | .acceptTcpHandler _ _ _ :: rest => callbacks id rest
  | .readFromClient other callback :: rest =>
    if other = id then callback :: callbacks id rest else callbacks id rest

/-- The pieces in which the bytes are offered. -/
def pieces (callbacks : List Callback) : List (List UInt8) :=
  callbacks.flatMap fun callback => callback.reads.map (·.chunk.bytes)

@[simp] theorem pieces_cons (callback : Callback) (rest : List Callback) :
    pieces (callback :: rest) = callback.reads.map (·.chunk.bytes) ++ pieces rest := rfl

theorem reads_of_quiet (quiet : pieces (callback :: rest) = []) :
    callback.reads = [] ∧ pieces rest = [] := by
  simpa using quiet

namespace Server

/-- Live connections have descriptors of their own, which are open. -/
structure Inv (listenfd : Int) (s : Server) : Prop where
  isOpen : ∀ id conn, s.conns id = some conn → conn.live = true → conn.fd ∈ s.state.opened
  listening : ∀ id conn, s.conns id = some conn → conn.live = true → conn.fd ≠ listenfd
  distinct : ∀ id other conn conn', s.conns id = some conn → s.conns other = some conn' →
    conn.live = true → conn'.live = true → conn.fd = conn'.fd → id = other

theorem start_inv (listenfd : Int) (errno : Errno) : Inv listenfd (start listenfd errno) := by
  constructor <;> intros <;> contradiction

/-- The server after a callback of a live connection. -/
structure Called (s : Server) (id : Nat) (conn : Conn) (callback : Callback) (next : Server) :
    Prop where
  globals : next.state.globals =
    (consume conn.fd callback.now s.state.globals callback.reads).1
  conns : next.conns = Function.update s.conns id (some ⟨conn.fd,
    (consume conn.fd callback.now s.state.globals callback.reads).2.2 &&
      staysOpen s.state.errno callback.stop,
    conn.view ++ (consume conn.fd callback.now s.state.globals callback.reads).2.1,
    conn.counts ++ s.state.globals.counts callback.now callback.reads⟩)
  opened : next.state.opened = s.state.opened ∨
    next.state.opened = s.state.opened.filter (· ≠ conn.fd)
  closed : conn.fd ∈ next.state.opened ↔
    ((consume conn.fd callback.now s.state.globals callback.reads).2.2 &&
      staysOpen s.state.errno callback.stop) = true

theorem step_called {id : Nat} (inv : Inv listenfd s) (known : s.conns id = some conn)
    (live : conn.live = true) (callback : Callback) :
    ∃ next, step listenfd s (.readFromClient id callback) = some next ∧
      Called s id conn callback next := by
  have isOpen := inv.isOpen id conn known live
  obtain ⟨globals, seen, opened, counted⟩ :=
    State.readFromClient_spec { s.state with effects := [] } isOpen callback
  rw [step, known]
  dsimp only
  rw [if_pos live]
  generalize State.readFromClient conn.fd callback.now { s.state with effects := [] }
    callback.inputs = after at globals seen opened ⊢
  have closed : conn.fd ∈ after.opened ↔
      ((consume conn.fd callback.now s.state.globals callback.reads).2.2 &&
        staysOpen s.state.errno callback.stop) = true := by
    rw [opened]
    split
    · rename_i stays
      exact ⟨fun _ => stays, fun _ => isOpen⟩
    · rename_i gone
      simp only [List.mem_filter, decide_not, ne_eq]
      constructor
      · simp
      · exact fun stays => absurd stays gone
  refine ⟨_, rfl, globals, ?_, ?_, closed⟩
  · dsimp only
    rw [called, seen, counted, Bool.eq_iff_iff.mpr (decide_eq_true_iff.trans closed)]
    rfl
  · dsimp only
    rw [opened]
    split
    · exact .inl rfl
    · exact .inr rfl

/-- What a step can be. -/
inductive Outcome (listenfd : Int) (s : Server) : Event → Server → Prop where
  | accepted (id : Nat) (cfd : Int) (created : Bool) (listening : listenfd ∈ s.state.opened)
      (fresh : cfd ∉ s.state.opened) (unknown : s.conns id = none) :
      Outcome listenfd s (.acceptTcpHandler id cfd created)
        { s with
          state := s.state.acceptTcpHandler listenfd cfd created
          conns := Function.update s.conns id (some ⟨cfd, created, [], []⟩) }
  | idle (id : Nat) (callback : Callback) (conn : Conn) (known : s.conns id = some conn)
      (dead : conn.live = false) : Outcome listenfd s (.readFromClient id callback) s
  | called (id : Nat) (callback : Callback) (conn : Conn) (known : s.conns id = some conn)
      (live : conn.live = true) (next : Server) (ran : Called s id conn callback next) :
      Outcome listenfd s (.readFromClient id callback) next

theorem step_outcome (inv : Inv listenfd s) (took : step listenfd s event = some next) :
    Outcome listenfd s event next := by
  cases event with
  | acceptTcpHandler id cfd created =>
    rw [step] at took
    split at took
    · rename_i possible
      cases took
      exact .accepted id cfd created possible.1 possible.2.1 (Option.isNone_iff_eq_none.mp
        possible.2.2)
    · cases took
  | readFromClient id callback =>
    cases known : s.conns id with
    | none =>
      simp only [step, known] at took
      cases took
    | some conn =>
      cases live : conn.live with
      | false =>
        simp only [step, known, live, Bool.false_eq_true, if_false] at took
        cases took
        exact .idle id callback conn known live
      | true =>
        obtain ⟨_, again, ran⟩ := step_called inv known live callback
        cases again.symm.trans took
        exact .called id callback conn known live _ ran

/-- No live connection is added and none changes its descriptor. -/
theorem Inv.kept (inv : Inv listenfd s)
    (before : ∀ other conn, next.conns other = some conn → conn.live = true →
      conn.fd ∈ next.state.opened ∧
        ∃ old, s.conns other = some old ∧ old.live = true ∧ old.fd = conn.fd) :
    Inv listenfd next := by
  constructor
  · exact fun other conn held live => (before other conn held live).1
  · intro other conn held live
    obtain ⟨_, old, was, lived, fd⟩ := before other conn held live
    exact fd ▸ inv.listening other old was lived
  · intro first second conn conn' held held' live live' same
    obtain ⟨_, old, was, lived, fd⟩ := before first conn held live
    obtain ⟨_, old', was', lived', fd'⟩ := before second conn' held' live'
    exact inv.distinct first second old old' was was' lived lived' (by rw [fd, fd', same])

/-- One connection is added, on a descriptor that was not open. -/
theorem Inv.added {id : Nat} (inv : Inv listenfd s) (listening : listenfd ∈ s.state.opened)
    (fresh : cfd ∉ s.state.opened)
    (conns : next.conns = Function.update s.conns id (some ⟨cfd, created, [], []⟩))
    (opened : ∀ fd ∈ cfd :: s.state.opened, fd ≠ listenfd → fd ∈ next.state.opened) :
    Inv listenfd next := by
  have own : cfd ≠ listenfd := fun same => fresh (same ▸ listening)
  have old : ∀ other conn, other ≠ id → next.conns other = some conn →
      s.conns other = some conn := by
    intro other conn different held
    rwa [conns, Function.update_of_ne different] at held
  have new : ∀ conn, next.conns id = some conn → conn.fd = cfd := by
    intro conn held
    rw [conns, Function.update_self] at held
    cases held
    rfl
  have apart : ∀ other conn, s.conns other = some conn → conn.live = true → conn.fd ≠ cfd :=
    fun other conn held live same => fresh (same ▸ inv.isOpen other conn held live)
  constructor
  · intro other conn held live
    by_cases same : other = id
    · subst same
      rw [new conn held]
      exact opened cfd List.mem_cons_self own
    · have before := old other conn same held
      exact opened conn.fd (List.mem_cons_of_mem _ (inv.isOpen other conn before live))
        (inv.listening other conn before live)
  · intro other conn held live
    by_cases same : other = id
    · subst same
      exact new conn held ▸ own
    · exact inv.listening other conn (old other conn same held) live
  · intro first second conn conn' held held' live live' same
    by_cases mine : first = id <;> by_cases yours : second = id
    · exact mine.trans yours.symm
    · subst mine
      have fd := new conn held
      exact absurd (same.symm.trans fd) (apart second conn' (old second conn' yours held') live')
    · subst yours
      have fd := new conn' held'
      exact absurd (same.trans fd) (apart first conn (old first conn mine held) live)
    · exact inv.distinct first second conn conn' (old first conn mine held)
        (old second conn' yours held') live live' same

private theorem Inv.called {id : Nat} (inv : Inv listenfd s) (known : s.conns id = some conn)
    (live : conn.live = true) (ran : Called s id conn callback next) : Inv listenfd next := by
  refine inv.kept fun other conn' held live' => ?_
  rw [ran.conns] at held
  by_cases same : other = id
  · subst same
    rw [Function.update_self] at held
    cases held
    exact ⟨ran.closed.mpr live', conn, known, live, rfl⟩
  · rw [Function.update_of_ne same] at held
    have isOpen := inv.isOpen other conn' held live'
    have apart : conn'.fd ≠ conn.fd := fun equal =>
      same (inv.distinct other id conn' conn held known live' live equal)
    refine ⟨?_, conn', held, live', rfl⟩
    rcases ran.opened with opened | opened
    · rw [opened]
      exact isOpen
    · rw [opened]
      exact List.mem_filter.mpr ⟨isOpen, decide_eq_true apart⟩

theorem Outcome.inv (inv : Inv listenfd s) (outcome : Outcome listenfd s event next) :
    Inv listenfd next := by
  cases outcome with
  | accepted id cfd created listening fresh unknown =>
    refine inv.added listening fresh rfl fun fd member apart => ?_
    cases created with
    | true => exact member
    -- on a failure it is the listening descriptor that `AcceptTcpHandler` closes
    | false => exact List.mem_filter.mpr ⟨member, decide_eq_true apart⟩
  | idle => exact inv
  | called id callback conn known live _ ran => exact inv.called known live ran

theorem Outcome.frame {id : Nat} (outcome : Outcome listenfd s event next)
    (other : event.id ≠ id) : next.conns id = s.conns id := by
  cases outcome with
  | accepted => exact Function.update_of_ne (Ne.symm other) _ _
  | idle => rfl
  | called _ _ _ _ _ _ ran =>
    rw [ran.conns]
    exact Function.update_of_ne (Ne.symm other) _ _

theorem made_other {id : Nat} (s : Server) (other : event.id ≠ id) : s.made id event = [] := by
  cases event with
  | acceptTcpHandler => rfl
  | readFromClient => exact if_neg fun both => other both.1

theorem made_live {id : Nat} {s : Server} (known : s.conns id = some conn)
    (live : conn.live = true) (callback : Callback) :
    s.made id (.readFromClient id callback) = [callback] :=
  if_pos ⟨rfl, by rw [known]; exact live⟩

theorem made_dead {id : Nat} {s : Server} (known : s.conns id = some conn)
    (dead : conn.live = false) (event : Event) : s.made id event = [] := by
  cases event with
  | acceptTcpHandler => rfl
  | readFromClient other callback =>
    refine if_neg fun both => ?_
    rw [known, Option.any_some, dead] at both
    cases both.2

theorem served_cons {id : Nat} (took : step listenfd s event = some next) (rest : List Event) :
    served listenfd id s (event :: rest) =
      s.made id event ++ served listenfd id next rest := by
  rw [served, took]

/-- A connection that has nothing to read has nothing to read now and nothing later. -/
theorem served_quiet_cons {id : Nat} (took : step listenfd s event = some next)
    (nothing : pieces (served listenfd id s (event :: rest)) = []) :
    pieces (s.made id event) = [] ∧ pieces (served listenfd id next rest) = [] := by
  rwa [served_cons took, pieces, List.flatMap_append, List.append_eq_nil_iff] at nothing

/-- A step that reads nothing leaves the variables alone. -/
theorem Outcome.quiet (outcome : Outcome listenfd s event next)
    (nothing : pieces (s.made event.id event) = []) :
    next.state.globals = s.state.globals := by
  cases outcome with
  | accepted id cfd created => cases created <;> rfl
  | idle => rfl
  | called id callback conn known live _ ran =>
    rw [Event.id, made_live known live] at nothing
    have none := (reads_of_quiet nothing).1
    rw [ran.globals, none]
    rfl

theorem callbacks_cons_other {id : Nat} (other : event.id ≠ id) (rest : List Event) :
    callbacks id (event :: rest) = callbacks id rest := by
  cases event with
  | acceptTcpHandler => rfl
  | readFromClient => exact if_neg other

theorem callbacks_cons_self (event : Event) (rest : List Event) :
    callbacks event.id (event :: rest) = callbacks event.id [event] ++ callbacks event.id rest := by
  cases event with
  | acceptTcpHandler => rfl
  | readFromClient id callback => simp [callbacks, Event.id]

/-- What the loop reads was offered. -/
theorem served_of_nothing {id : Nat} (nothing : pieces (callbacks id events) = []) (s : Server) :
    pieces (served listenfd id s events) = [] := by
  induction events generalizing s with
  | nil => rfl
  | cons event rest ih =>
    have both : pieces (s.made id event) = [] ∧ pieces (callbacks id rest) = [] := by
      by_cases mine : event.id = id
      · subst mine
        rw [callbacks_cons_self, pieces, List.flatMap_append, List.append_eq_nil_iff] at nothing
        refine ⟨?_, nothing.2⟩
        cases event with
        | acceptTcpHandler => rfl
        | readFromClient who callback =>
          rw [made]
          split
          · simpa [Event.id, callbacks, pieces] using nothing.1
          · rfl
      · rw [callbacks_cons_other mine] at nothing
        exact ⟨by rw [made_other s mine]; rfl, nothing⟩
    rw [served, pieces, List.flatMap_append, List.append_eq_nil_iff]
    refine ⟨both.1, ?_⟩
    cases step listenfd s event with
    | none => rfl
    | some next => exact ih both.2 next

/-- A connection and the variables after a callback, should the loop make it. -/
def answered (conn : Conn) (s : State) (callback : Callback) : Conn × Globals :=
  if conn.live then
    let (g, seen, incomplete) := consume conn.fd callback.now s.globals callback.reads
    (⟨conn.fd, incomplete && staysOpen s.errno callback.stop, conn.view ++ seen,
      conn.counts ++ s.globals.counts callback.now callback.reads⟩, g)
  else (conn, s.globals)

theorem callback_step {id : Nat} (inv : Inv listenfd s) (known : s.conns id = some conn)
    (callback : Callback) :
    ∃ next, step listenfd s (.readFromClient id callback) = some next ∧
      next.conns id = some (answered conn s.state callback).1 ∧
      next.state.globals = (answered conn s.state callback).2 := by
  cases live : conn.live with
  | false => exact ⟨s, by simp [step, known, live], by simp [answered, live, known]⟩
  | true =>
    obtain ⟨next, took, ran⟩ := step_called inv known live callback
    refine ⟨next, took, ?_, ?_⟩
    · rw [ran.conns, Function.update_self, answered, if_pos live]
    · rw [ran.globals, answered, if_pos live]

/-- A callback without data shows nothing and moves nothing. -/
theorem answered_quiet (conn : Conn) (s : State) (nothing : callback.reads = []) :
    answered conn s callback =
      ({ conn with live := conn.live && staysOpen s.errno callback.stop }, s.globals) := by
  obtain ⟨fd, live, view, counts⟩ := conn
  cases live with
  | false => rfl
  | true => simp [answered, nothing, consume, Globals.counts]

end Server

end TcpCongestion.Redis
