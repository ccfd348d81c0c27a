import TcpCongestion.EventLoop
import TcpCongestion.Runs

/-! `processTimeEvents` of `thirdparty/redisnet/ae.c`, over the list of time events as the loop
keeps it: with the time each is due, and with the ended ones until the next pass frees them. A
pass does to the events of an `EventLoop` what firing some of them one after the other does. No
caller sets a finalizer or calls `aeDeleteTimeEvent`. -/
namespace TcpCongestion.TimeEvents

open Runs

/-- A reading of the clock, or the time an event is due. -/
structure When where
  sec : Int
  ms : Int
  deriving DecidableEq, Repr

/-- An `aeTimeEvent`; `id` is `none` for `AE_DELETED_EVENT_ID`. -/
structure TimeNode (τ : Type) where
  id : Option Nat
  due : When
  clientData : τ
  deriving DecidableEq, Repr

/-- The members of the loop that concern time events. -/
structure TimerList (τ : Type) where
  timeEventNextId : Nat
  timeEventHead : List (TimeNode τ)
  lastTime : Int
  deriving DecidableEq, Repr

/-- A callback, on the state of the program around the loop. It may create events, each so
many milliseconds from then, and returns the next delay or `AE_NOMORE`. -/
abbrev TimeProc (σ τ : Type) := σ → Nat → τ → Option (σ × List (Int × τ) × Int)

def aeAddMillisecondsToNow (milliseconds : Int) (now : When) : When :=
  let whenSec := now.sec + milliseconds.tdiv 1000
  let whenMs := now.ms + milliseconds.tmod 1000
  if whenMs ≥ 1000 then ⟨whenSec + 1, whenMs - 1000⟩ else ⟨whenSec, whenMs⟩

/-- The time has come. -/
def Passed (now due : When) : Prop := now.sec > due.sec ∨ now.sec = due.sec ∧ now.ms ≥ due.ms

instance (now due : When) : Decidable (Passed now due) :=
  inferInstanceAs (Decidable (_ ∨ _))

/-- A pass on its way: the state of the program, the events created since it began, newest
first, how often the clock was read, and the callbacks made. -/
structure Pass (σ τ : Type) where
  owner : σ
  timeEventNextId : Nat
  created : List (TimeNode τ)
  readings : Nat
  fired : List Nat

section
-- the callback, and what the readings of the clock give
variable (timeProc : TimeProc σ τ) (clock : Nat → When)

/-- `aeCreateTimeEvent`, from a callback. -/
def create (p : Pass σ τ) (event : Int × τ) : Pass σ τ :=
  let due := aeAddMillisecondsToNow event.1 (clock p.readings)
  { p with
    timeEventNextId := p.timeEventNextId + 1
    created := ⟨some p.timeEventNextId, due, event.2⟩ :: p.created
    readings := p.readings + 1 }

/-- The body of the loop over the list: what it leaves of the event it is at. -/
def visit (maxId : Int) (p : Pass σ τ) (te : TimeNode τ) :
    Option (Pass σ τ × List (TimeNode τ)) :=
  match te.id with
  | none => some (p, [])
  | some id =>
    if id > maxId then some (p, [te])
    else
      let now := clock p.readings
      let p := { p with readings := p.readings + 1 }
      if Passed now te.due then
        match timeProc p.owner id te.clientData with
        | none => none
        | some (owner, events, retval) =>
          let p := events.foldl (create clock) { p with owner, fired := p.fired ++ [id] }
          if retval ≠ AE_NOMORE then
            let due := aeAddMillisecondsToNow retval (clock p.readings)
            some ({ p with readings := p.readings + 1 }, [{ te with due }])
          else some (p, [{ te with id := none }])
      else some (p, [te])

def walk (maxId : Int) : Pass σ τ → List (TimeNode τ) → Option (Pass σ τ × List (TimeNode τ))
  | p, [] => some (p, [])
  | p, te :: rest => do
    let (p, here) ← visit timeProc clock maxId p te
    let (p, nodes) ← walk maxId p rest
    some (p, here ++ nodes)

/-- The list at the beginning of a pass: a wall clock that was set back makes every event
due. -/
def rewound (now : Int) (timers : TimerList τ) : List (TimeNode τ) :=
  if now < timers.lastTime then
    timers.timeEventHead.map fun te => { te with due := { te.due with sec := 0 } }
  else timers.timeEventHead

/-- `processTimeEvents`, which finds `now` on the wall clock. It returns the callbacks it made,
of which the code keeps the number. -/
def processTimeEvents (now : Int) (s : σ) (timers : TimerList τ) :
    Option (σ × TimerList τ × List Nat) := do
  let maxId : Int := timers.timeEventNextId - 1
  let begun : Pass σ τ := ⟨s, timers.timeEventNextId, [], 0, []⟩
  let (p, nodes) ← walk timeProc clock maxId begun (rewound now timers)
  some (p.owner, ⟨p.timeEventNextId, p.created ++ nodes, now⟩, p.fired)

end

/-! ## The events of an `EventLoop` -/

/-- The events a callback creates, in order. -/
def createAll {δ : Type} (loop : EventLoop δ τ) (events : List (Int × τ)) : EventLoop δ τ :=
  events.foldl (fun loop event => loop.aeCreateTimeEvent event.2) loop

/-- The event of that number fires: what its callback creates goes to the head of the list,
and what it returns decides whether it stays. -/
def fire {δ : Type} (timeProc : TimeProc σ τ) (s : σ × EventLoop δ τ) (id : Nat) :
    Option (σ × EventLoop δ τ) :=
  match s.2.timeEvents.find? (·.id = id) with
  | none => none
  | some event => (timeProc s.1 id event.clientData).map fun (owner, events, retval) =>
    (owner, (createAll s.2 events).timeProcReturned id retval)

/-- The events that have not ended. -/
def live (nodes : List (TimeNode τ)) : List (TimeEvent τ) :=
  nodes.filterMap fun te => te.id.map (⟨·, te.clientData⟩)

private theorem live_append (first second : List (TimeNode τ)) :
    live (first ++ second) = live first ++ live second :=
  List.filterMap_append

private theorem live_rewound (now : Int) (timers : TimerList τ) :
    live (rewound now timers) = live timers.timeEventHead := by
  rw [rewound]
  split
  · simp [live, List.filterMap_map]
  · rfl

private theorem live_cons (te : TimeNode τ) (rest : List (TimeNode τ)) :
    live (te :: rest) = live [te] ++ live rest :=
  live_append [te] rest

/-- The list is that of the loop. -/
structure Represents {δ : Type} (nextId : Nat) (nodes : List (TimeNode τ))
    (loop : EventLoop δ τ) : Prop where
  nextId : nextId = loop.timeEventNextId
  events : live nodes = loop.timeEvents
  known : ∀ event ∈ loop.timeEvents, event.id < loop.timeEventNextId
  distinct : (loop.timeEvents.map (·.id)).Nodup

section

variable {δ : Type} {loop : EventLoop δ τ} {clock : Nat → When} {timeProc : TimeProc σ τ}
  {nextId id : Nat}

private theorem Represents.same (holds : Represents nextId nodes loop)
    (same : live other = live nodes) : Represents nextId other loop :=
  ⟨holds.nextId, same.trans holds.events, holds.known, holds.distinct⟩

theorem Represents.create (holds : Represents nextId nodes loop) (due : When) (data : τ) :
    Represents (nextId + 1) (⟨some nextId, due, data⟩ :: nodes) (loop.aeCreateTimeEvent data) := by
  refine ⟨congrArg (· + 1) holds.nextId, ?_, ?_, ?_⟩
  · rw [live_cons, holds.events, holds.nextId]
    rfl
  · intro event member
    rcases List.mem_cons.mp member with rfl | old
    · exact Nat.lt_succ_self _
    · exact Nat.lt_succ_of_lt (holds.known event old)
  · refine List.nodup_cons.mpr ⟨fun member => ?_, holds.distinct⟩
    obtain ⟨event, old, same⟩ := List.mem_map.mp member
    have bound := holds.known event old
    rw [same] at bound
    exact Nat.lt_irrefl _ bound

private theorem create_fixed (clock : Nat → When) (events : List (Int × τ)) (p : Pass σ τ) :
    (events.foldl (create clock) p).owner = p.owner ∧
      (events.foldl (create clock) p).fired = p.fired := by
  induction events generalizing p with
  | nil => exact ⟨rfl, rfl⟩
  | cons event rest ih => exact ih (create clock p event)

private theorem Represents.createAll (clock : Nat → When) (events : List (Int × τ)) {p : Pass σ τ}
    {loop : EventLoop δ τ} (holds : Represents p.timeEventNextId (p.created ++ nodes) loop) :
    Represents (events.foldl (TimeEvents.create clock) p).timeEventNextId
      ((events.foldl (TimeEvents.create clock) p).created ++ nodes)
      (TimeEvents.createAll loop events) := by
  induction events generalizing p loop with
  | nil => exact holds
  | cons event rest ih => exact ih (p := TimeEvents.create clock p event) (holds.create _ event.2)

/-- Where an event that has not ended is in the loop's list. No other has its number. -/
theorem Represents.around (holds : Represents nextId (before ++ te :: after) loop)
    (numbered : te.id = some id) :
    loop.timeEvents = live before ++ ⟨id, te.clientData⟩ :: live after ∧
      (∀ event ∈ live before, event.id ≠ id) ∧ ∀ event ∈ live after, event.id ≠ id := by
  have split : loop.timeEvents = live before ++ ⟨id, te.clientData⟩ :: live after := by
    rw [← holds.events, live_append, live_cons]
    simp [live, numbered]
  have distinct := holds.distinct
  rw [split, List.map_append, List.map_cons, List.nodup_append, List.nodup_cons] at distinct
  obtain ⟨_, ⟨once, _⟩, apart⟩ := distinct
  refine ⟨split, fun event member => ?_, fun event member same => ?_⟩
  · exact apart event.id (List.mem_map_of_mem member) id List.mem_cons_self
  · exact once (List.mem_map.mpr ⟨event, member, same⟩)

/-- An event that has not ended is found by its number. -/
theorem Represents.find (holds : Represents nextId (before ++ te :: after) loop)
    (numbered : te.id = some id) :
    loop.timeEvents.find? (·.id = id) = some ⟨id, te.clientData⟩ := by
  obtain ⟨split, early, _⟩ := holds.around numbered
  refine List.find?_eq_some_iff_append.mpr ⟨by simp, live before, live after, split, ?_⟩
  intro event member
  simpa using early event member

/-- Ending an event takes it out of the loop's list and no other. -/
theorem Represents.ended (holds : Represents nextId (before ++ te :: after) loop)
    (numbered : te.id = some id) :
    Represents nextId (before ++ { te with id := none } :: after)
      (loop.timeProcReturned id AE_NOMORE) := by
  obtain ⟨split, early, late⟩ := holds.around numbered
  have stay : ∀ events : List (TimeEvent τ), (∀ event ∈ events, event.id ≠ id) →
      events.filter (·.id ≠ id) = events := by
    intro events others
    exact List.filter_eq_self.mpr fun event member => by simpa using others event member
  have rest : (loop.timeProcReturned id AE_NOMORE).timeEvents = live before ++ live after := by
    rw [EventLoop.timeProcReturned, if_pos rfl]
    dsimp only
    rw [split, List.filter_append, stay _ early, List.filter_cons_of_neg (by simp), stay _ late]
  have sublist : List.Sublist (loop.timeProcReturned id AE_NOMORE).timeEvents loop.timeEvents := by
    rw [rest, split]
    exact (List.sublist_cons_self _ _).append_left _
  refine ⟨?_, ?_, ?_, ?_⟩
  · rw [EventLoop.timeProcReturned, if_pos rfl]
    exact holds.nextId
  · rw [rest, live_append, live_cons]
    rfl
  · intro event member
    have bound := holds.known event (sublist.subset member)
    rw [EventLoop.timeProcReturned, if_pos rfl]
    exact bound
  · exact holds.distinct.sublist (sublist.map _)

end

/-! ## A pass fires events one after the other -/

section

variable {δ : Type} {clock : Nat → When} {timeProc : TimeProc σ τ} {p q : Pass σ τ} {maxId : Int}

/-- Every way the body of the loop can come to its end. -/
theorem visit_cases (visited : visit timeProc clock maxId p te = some (q, here)) :
    (live here = live [te] ∧ q.owner = p.owner ∧ q.timeEventNextId = p.timeEventNextId ∧
      q.created = p.created ∧ q.fired = p.fired ∧
      (∀ id, te.id = some id → maxId < id ∨ ¬ Passed (clock p.readings) te.due)) ∨
    ∃ id owner events retval, te.id = some id ∧ timeProc p.owner id te.clientData =
        some (owner, events, retval) ∧
      (let begun : Pass σ τ :=
        { p with owner, readings := p.readings + 1, fired := p.fired ++ [id] }
      let made := events.foldl (create clock) begun
      q.owner = made.owner ∧ q.timeEventNextId = made.timeEventNextId ∧
        q.created = made.created ∧ q.fired = made.fired) ∧
      (if retval = AE_NOMORE then here = [{ te with id := none }]
        else ∃ due, here = [{ te with due }]) := by
  unfold visit at visited
  split at visited
  · rename_i ended
    cases visited
    refine .inl ⟨by simp [live, ended], rfl, rfl, rfl, rfl, fun id numbered => ?_⟩
    cases ended.symm.trans numbered
  · rename_i id numbered
    split at visited
    · rename_i new
      cases visited
      refine .inl ⟨rfl, rfl, rfl, rfl, rfl, fun other same => ?_⟩
      cases numbered.symm.trans same
      exact .inl new
    · dsimp only at visited
      split at visited
      · split at visited
        · cases visited
        · rename_i owner events retval called
          refine .inr ⟨id, owner, events, retval, numbered, called, ?_⟩
          split at visited
          · rename_i more
            cases visited
            exact ⟨⟨rfl, rfl, rfl, rfl⟩, by rw [if_neg more]; exact ⟨_, rfl⟩⟩
          · rename_i done
            cases visited
            exact ⟨⟨rfl, rfl, rfl, rfl⟩, by rw [if_pos (not_not.mp done)]⟩
      · rename_i early
        cases visited
        refine .inl ⟨rfl, rfl, rfl, rfl, rfl, fun other same => ?_⟩
        cases numbered.symm.trans same
        exact .inr early

private theorem visit_refines {loop : EventLoop δ τ}
    (holds : Represents p.timeEventNextId (p.created ++ (before ++ te :: after)) loop)
    (visited : visit timeProc clock maxId p te = some (q, here)) :
    ∃ ids last, run (fire timeProc) (p.owner, loop) ids = some (q.owner, last) ∧
      q.fired = p.fired ++ ids ∧
      Represents q.timeEventNextId (q.created ++ (before ++ (here ++ after))) last := by
  rcases visit_cases visited with ⟨same, owner, nextId, created, fired, _⟩ |
    ⟨id, owner, events, retval, numbered, called, made, stays⟩
  · refine ⟨[], loop, by rw [owner]; rfl, by rw [fired, List.append_nil], ?_⟩
    rw [nextId, created]
    refine holds.same ?_
    simp only [live_append, live_cons te after, same]
  · rw [← List.append_assoc] at holds
    have found := holds.find numbered
    rw [List.append_assoc] at holds
    let begun : Pass σ τ := { p with owner, readings := p.readings + 1, fired := p.fired ++ [id] }
    obtain ⟨sameOwner, sameFired⟩ := create_fixed clock events begun
    have more := Represents.createAll clock events (p := begun) holds
    obtain ⟨itsOwner, itsNextId, itsCreated, itsFired⟩ := made
    refine ⟨[id], (createAll loop events).timeProcReturned id retval, ?_,
      itsFired.trans sameFired, ?_⟩
    · rw [itsOwner, sameOwner, run, fire, found]
      dsimp only
      rw [called]
      rfl
    · rw [itsNextId, itsCreated]
      split at stays
      · rename_i done
        rw [stays, done]
        rw [← List.append_assoc] at more ⊢
        exact more.ended numbered
      · rename_i again
        obtain ⟨due, rfl⟩ := stays
        rw [EventLoop.timeProcReturned, if_neg again]
        refine more.same ?_
        simp only [live_append, live_cons te after]
        rfl

private theorem walk_cons (walked : walk timeProc clock maxId p (te :: rest) = some (q, left)) :
    ∃ mid here more, visit timeProc clock maxId p te = some (mid, here) ∧
      walk timeProc clock maxId mid rest = some (q, more) ∧ left = here ++ more := by
  rw [walk, Option.bind_eq_bind, Option.bind_eq_some_iff] at walked
  obtain ⟨⟨mid, here⟩, visited, onward⟩ := walked
  obtain ⟨⟨last, more⟩, walked, same⟩ := Option.bind_eq_some_iff.mp onward
  cases same
  exact ⟨mid, here, more, visited, walked, rfl⟩

private theorem walk_refines {loop : EventLoop δ τ} (before nodes : List (TimeNode τ))
    (holds : Represents p.timeEventNextId (p.created ++ (before ++ nodes)) loop)
    (walked : walk timeProc clock maxId p nodes = some (q, left)) :
    ∃ ids last, run (fire timeProc) (p.owner, loop) ids = some (q.owner, last) ∧
      q.fired = p.fired ++ ids ∧
      Represents q.timeEventNextId (q.created ++ (before ++ left)) last := by
  induction nodes generalizing p before left loop with
  | nil =>
    cases walked
    exact ⟨[], loop, rfl, (List.append_nil _).symm, holds⟩
  | cons te rest ih =>
    obtain ⟨mid, here, more, visited, onward, rfl⟩ := walk_cons walked
    obtain ⟨ids, between, first, log, held⟩ := visit_refines holds visited
    rw [← List.append_assoc before] at held
    obtain ⟨others, final, second, grown, kept⟩ := ih _ held onward
    refine ⟨ids ++ others, final, run_append.mpr ⟨_, first, second⟩, ?_, ?_⟩
    · rw [grown, log, List.append_assoc]
    · rwa [List.append_assoc before] at kept

/-- The pass leaves the list of the loop as the events it fired leave it. -/
theorem processTimeEvents_refines {loop : EventLoop δ τ} {timers after : TimerList τ}
    (holds : Represents timers.timeEventNextId timers.timeEventHead loop)
    (processed : processTimeEvents timeProc clock now s timers = some (next, after, fired)) :
    ∃ last, run (fire timeProc) (s, loop) fired = some (next, last) ∧
      Represents after.timeEventNextId after.timeEventHead last := by
  rw [processTimeEvents, Option.bind_eq_bind, Option.bind_eq_some_iff] at processed
  obtain ⟨⟨p, left⟩, walked, same⟩ := processed
  cases same
  have begins : Represents timers.timeEventNextId (rewound now timers) loop :=
    holds.same (live_rewound now timers)
  obtain ⟨ids, last, ran, log, kept⟩ := walk_refines [] (rewound now timers) begins walked
  rw [show p.fired = ids from log]
  exact ⟨last, ran, kept⟩

/-- Once their time has come and while the clock stays past it, all events fire. -/
theorem walk_fires (nodes : List (TimeNode τ))
    (numbers : ∀ te ∈ nodes, ∀ id, te.id = some id → id ≤ maxId)
    (passed : ∀ te ∈ nodes, ∀ reading, Passed (clock reading) te.due)
    (walked : walk timeProc clock maxId p nodes = some (q, left)) :
    q.fired = p.fired ++ (live nodes).map (·.id) := by
  induction nodes generalizing p left with
  | nil =>
    cases walked
    exact (List.append_nil _).symm
  | cons te rest ih =>
    obtain ⟨mid, here, more, visited, onward, rfl⟩ := walk_cons walked
    rw [ih (fun other member => numbers other (List.mem_cons_of_mem _ member))
      (fun other member => passed other (List.mem_cons_of_mem _ member)) onward, live_cons,
      List.map_append, ← List.append_assoc]
    congr 1
    rcases visit_cases visited with ⟨_, _, _, _, fired, skipped⟩ |
      ⟨id, owner, events, retval, numbered, called, made, _⟩
    · rw [fired]
      cases numbered : te.id with
      | none => simp [live, numbered]
      | some id =>
        rcases skipped id numbered with new | early
        · exact absurd (numbers te List.mem_cons_self id numbered) (by omega)
        · exact absurd (passed te List.mem_cons_self _) early
    · let begun : Pass σ τ := { p with owner, readings := p.readings + 1, fired := p.fired ++ [id] }
      rw [made.2.2.2, (create_fixed clock events begun).2]
      simp [live, numbered, begun]

theorem processTimeEvents_fires {loop : EventLoop δ τ} {timers after : TimerList τ}
    (holds : Represents timers.timeEventNextId timers.timeEventHead loop)
    (passed : ∀ te ∈ rewound now timers, ∀ reading, Passed (clock reading) te.due)
    (processed : processTimeEvents timeProc clock now s timers = some (next, after, fired)) :
    fired = loop.timeEvents.map (·.id) := by
  rw [processTimeEvents, Option.bind_eq_bind, Option.bind_eq_some_iff] at processed
  obtain ⟨⟨p, left⟩, walked, same⟩ := processed
  cases same
  have events : live (rewound now timers) = loop.timeEvents :=
    (live_rewound now timers).trans holds.events
  have numbers : ∀ te ∈ rewound now timers, ∀ id, te.id = some id →
      (id : Int) ≤ timers.timeEventNextId - 1 := by
    intro te member id numbered
    have listed : ⟨id, te.clientData⟩ ∈ live (rewound now timers) :=
      List.mem_filterMap.mpr ⟨te, member, by rw [numbered]; rfl⟩
    have bound := holds.known _ (events ▸ listed)
    rw [← holds.nextId] at bound
    dsimp only at bound
    omega
  rw [← events]
  exact walk_fires (rewound now timers) numbers passed walked

end

end TcpCongestion.TimeEvents
