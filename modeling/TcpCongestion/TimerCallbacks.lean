import Mathlib.Data.Set.Finite.List
import TcpCongestion.TimerPass

/-! `processTimeEvents` on the chain of cells with the callbacks of a program: they create events
and return the next delay, and there are no finalizers, as in this repository. What it does is
what `TimeEvents.processTimeEvents` does to the plain list. -/
namespace TcpCongestion.TimerChain
open Runs LinkedCells TimeEvents

variable {σ α τ : Type}

/-- The program around the chain, with how often the clock was read and the callbacks made. -/
structure Running (σ α τ : Type) where
  owner : σ
  readings : Nat
  fired : List Nat
  chain : Chain α τ

namespace Running

section
-- the callback, what the readings of the clock give, and the memory `zmalloc` finds
variable [DecidableEq α] (timeProc : TimeProc σ τ) (clock : Nat → When)
  (zmalloc : Heap α (Event τ) → α)

/-- `aeCreateTimeEvent`, from a callback. -/
def create (r : Running σ α τ) (event : Int × τ) : Option (Running σ α τ) := do
  let chain ← r.chain.step
    (.create (some (zmalloc r.chain.heap)) event.1 event.2 false (clock r.readings))
  some { r with chain, readings := r.readings + 1 }

/-- The call of `timeProc`, and what follows it in the body of the loop. -/
def call (r : Running σ α τ) (id : Nat) (clientData : τ) : Option (Running σ α τ) := do
  let (owner, events, retval) ← timeProc r.owner id clientData
  let r ← events.foldlM (create clock zmalloc) { r with owner, fired := r.fired ++ [id] }
  let chain ← r.chain.step (.returned retval (clock r.readings))
  some { r with
    chain, readings := if retval ≠ AE_NOMORE then r.readings + 1 else r.readings }

/-- The body of the loop. -/
def body (r : Running σ α τ) (te : α) (maxId : Int) : Option (Running σ α τ) := do
  let e := (← r.chain.heap te).value
  let now := clock r.readings
  let chain ← r.chain.step (.visit now)
  if e.id = AE_DELETED_EVENT_ID ∨ e.id > maxId then some { r with chain }
  else
    let r := { r with chain, readings := r.readings + 1 }
    if Passed now e.due then call timeProc clock zmalloc r e.id.toNat e.clientData else some r

def loop : Nat → Running σ α τ → Option (Running σ α τ)
  | 0, _ => none
  | fuel + 1, r =>
    match r.chain.stage with
    | .walking none _ => (r.chain.step .finish).map fun chain => { r with chain }
    | .walking (some te) maxId => do
      let r ← body timeProc clock zmalloc r te maxId
      loop fuel r
    | _ => none

/-- `processTimeEvents`, which finds `now` on the wall clock. It comes to no more events than
there were ids when it began. -/
def processTimeEvents (now : Int) (owner : σ) (chain : Chain α τ) : Option (Running σ α τ) := do
  let chain ← chain.step (.enter now)
  loop timeProc clock zmalloc (chain.timeEventNextId + 1) ⟨owner, 0, [], chain⟩

end

end Running

/-! ## The agenda as the plain list -/

/-- The event as the plain list has it. -/
def Event.node (e : Event τ) : TimeNode τ :=
  ⟨if e.id = AE_DELETED_EVENT_ID then none else some e.id.toNat, e.due, e.clientData⟩

private theorem Event.node_live {e : Event τ} {number : Nat} (named : e.id = number) :
    e.node = ⟨some number, e.due, e.clientData⟩ := by
  have live : e.id ≠ AE_DELETED_EVENT_ID := by
    rw [named, AE_DELETED_EVENT_ID]
    omega
  rw [Event.node, if_neg live, named]
  rfl

private theorem Event.node_ended {e : Event τ} (past : e.id = AE_DELETED_EVENT_ID) :
    e.node = ⟨none, e.due, e.clientData⟩ := by
  rw [Event.node, if_pos past]

/-- The agenda is in the pass where the plain list is: `kept` it has behind it and `nodes`
ahead. -/
structure Matches (time : Int) (s : Agenda τ) (phase : Phase τ) (p : TimeEvents.Pass σ τ)
    (kept nodes : List (TimeNode τ)) : Prop where
  inv : s.Inv
  phase : s.phase = phase
  ahead : s.ahead.map Event.node = nodes
  seen : s.seen.map Event.node = p.created ++ kept
  plain : ∀ e ∈ s.listed, e.finalizerProc = false
  count : s.timeEventNextId = p.timeEventNextId
  last : s.lastTime = time

/-- The chain with the program around it is where the plain list is. -/
structure Plays (time : Int) (r : Running σ α τ) (phase : Phase τ) (p : TimeEvents.Pass σ τ)
    (kept nodes : List (TimeNode τ)) : Prop where
  owner : r.owner = p.owner
  readings : r.readings = p.readings
  fired : r.fired = p.fired
  agenda : ∃ s, Represents r.chain s ∧ Matches time s phase p kept nodes

/-- What the plain list keeps of an event whose callback returned. -/
def returnedNode (te : TimeNode τ) (retval : Int) (now : When) : TimeNode τ :=
  if retval ≠ AE_NOMORE then { te with due := aeAddMillisecondsToNow retval now }
  else { te with id := none }

private theorem visit_called {timeProc : TimeProc σ τ} {clock : Nat → When}
    {p : TimeEvents.Pass σ τ}
    {te : TimeNode τ} {id : Nat} (number : te.id = some id) (old : ¬ (id : Int) > maxId)
    (due : Passed (clock p.readings) te.due)
    (called : timeProc p.owner id te.clientData = some (next, events, retval)) :
    let later := events.foldl (TimeEvents.create clock)
      { p with readings := p.readings + 1, owner := next, fired := p.fired ++ [id] }
    TimeEvents.visit timeProc clock maxId p te = some
      ({ later with readings := if retval ≠ AE_NOMORE then later.readings + 1 else later.readings },
        [returnedNode te retval (clock later.readings)]) := by
  intro later
  simp only [TimeEvents.visit, number, if_neg old, if_pos due, called, returnedNode]
  by_cases more : retval = AE_NOMORE
  · simp only [more, ne_eq, not_true, if_false]
    rfl
  · simp only [more, ne_eq, not_false_eq_true, if_true]
    rfl

/-- The pass goes past an event, of which it leaves something. -/
theorem Matches.passed {s next : Agenda τ} {phase : Phase τ} {e left : Event τ}
    {events : List (Event τ)} {p later : TimeEvents.Pass σ τ} {kept nodes : List (TimeNode τ)}
    {move : Move α τ}
    (agrees : Matches time s phase p kept nodes) (here : s.ahead = e :: events)
    (took : s.Step move next) (walking : next.phase = .walking maxId)
    (seen : next.seen = s.seen ++ [left]) (ahead : next.ahead = events)
    (last : left.finalizerProc = e.finalizerProc)
    (count : next.timeEventNextId = s.timeEventNextId) (still : next.lastTime = s.lastTime)
    (created : later.created = p.created) (number : later.timeEventNextId = p.timeEventNextId) :
    Matches time next (.walking maxId) later (kept ++ [left.node]) (events.map Event.node) where
  inv := agrees.inv.step took
  phase := walking
  ahead := by rw [ahead]
  seen := by
    rw [seen, List.map_append, agrees.seen, created, List.append_assoc]
    rfl
  plain := by
    intro other member
    rw [Agenda.listed, seen, ahead, ← List.append_cons] at member
    obtain before | rfl | after := (List.mem_append.trans (or_congr_right List.mem_cons)).mp member
    · exact agrees.plain other (List.mem_append_left _ before)
    · exact last.trans (agrees.plain e (List.mem_append_right _ (here ▸ List.mem_cons_self)))
    · exact agrees.plain other
        (List.mem_append_right _ (here ▸ List.mem_cons_of_mem _ after))
  count := by rw [count, agrees.count, number]
  last := still.trans agrees.last

private theorem Agenda.Step.deterministic {s first second : Agenda τ} {move : Move α τ}
    (one : s.Step move first) (two : s.Step move second) : first = second := by
  cases one with
  | refused | created | deleted | entered | finished =>
    cases two
    rfl
  | collected e rest maxId walking here past plain => cases two <;> simp_all
  | unlinked e rest maxId walking here past last => cases two <;> simp_all
  | newer e rest maxId walking here live late => cases two <;> simp_all <;> omega
  | fired e rest maxId walking here live old passed => cases two <;> simp_all; omega
  | waits e rest maxId walking here live old early => cases two <;> simp_all; omega
  | again e rest maxId calling here more => cases two <;> simp_all
  | nomore e rest maxId calling here past => cases two <;> simp_all
  | finalized e maxId calling =>
    cases two
    simp_all

private theorem Represents.holds {c : Chain α τ} {s : Agenda τ} (represents : Represents c s) :
    ∃ nodes loose, Holds c.heap nodes loose := by
  cases represents with
  | intro holds => exact ⟨_, _, holds⟩

/-- The event the loop has come to. -/
theorem Represents.at_event {c : Chain α τ} {s : Agenda τ} {events : List (Event τ)} {te : α}
    (represents : Represents c s) (walking : c.stage = .walking (some te) maxId)
    (here : s.ahead = e :: events) : ∃ cell, c.heap te = some cell ∧ cell.value = e := by
  cases represents with
  | intro holds placed timeEventNextId lastTime log =>
    cases placed with
    | idle | inTimeProc | inFinalizer => cases walking
    | walking ahead maxId =>
      obtain ⟨e, rest, rfl⟩ := entrance_eq_some (Stage.walking.inj walking).1
      cases here
      exact ⟨_, holds.read, rfl⟩

/-- The pointer of the walk is null at the end of the list. -/
theorem Represents.walking {c : Chain α τ} {s : Agenda τ} (represents : Represents c s)
    (walking : s.phase = .walking maxId) :
    ∃ te, c.stage = .walking te maxId ∧ (te = none ↔ s.ahead = []) := by
  cases represents with
  | intro holds placed timeEventNextId lastTime log =>
    cases placed with
    | idle | inTimeProc | inFinalizer => cases walking
    | walking ahead maxId =>
      cases walking
      exact ⟨_, rfl, entrance_eq_none.trans List.map_eq_nil_iff.symm⟩

/-- The chain can make every move that the agenda makes. -/
theorem Represents.takes {c : Chain α τ} {s next : Agenda τ} {move : Move α τ}
    (represents : Represents c s) (took : s.Step move next) : Chain.takes c.stage move = true := by
  cases represents with
  | @intro heap seen ahead loose stage phase holds placed timeEventNextId lastTime log =>
    have comes : ∀ e rest, ahead.map Prod.snd = e :: rest → (entrance ahead none).isSome := by
      intro e rest here
      cases ahead with
      | nil => cases here
      | cons => rfl
    cases took with
    | refused calls | created calls | deleted calls =>
      cases placed with
      | walking ahead maxId => exact (calls maxId rfl).elim
      | idle | inTimeProc | inFinalizer => rfl
    | entered idle =>
      cases placed with
      | idle => rfl
      | walking | inTimeProc | inFinalizer => cases idle
    | collected e rest maxId walking here | unlinked e rest maxId walking here
    | newer e rest maxId walking here | fired e rest maxId walking here
    | waits e rest maxId walking here =>
      cases placed with
      | walking => exact comes e rest here
      | idle | inTimeProc | inFinalizer => cases walking
    | again e rest maxId calling | nomore e rest maxId calling =>
      cases placed with
      | inTimeProc => rfl
      | idle | walking | inFinalizer => cases calling
    | finalized e maxId calling =>
      cases placed with
      | inFinalizer => rfl
      | idle | walking | inTimeProc => cases calling
    | finished walking all =>
      cases placed with
      | walking =>
        cases List.map_eq_nil_iff.mp all
        rfl
      | idle | inTimeProc | inFinalizer => cases walking

section
variable [DecidableEq α]

private theorem Represents.goes {c : Chain α τ} {s next : Agenda τ} {move : Move α τ}
    (represents : Represents c s) (inv : s.Inv) (took : s.Step move next)
    (unused : c.unused move = true) :
    ∃ after, c.step move = some after ∧ Represents after next := by
  have enabled : c.Enabled move := ⟨represents.takes took, unused⟩
  obtain ⟨after, later, ran, again, matched⟩ := chain_refines represents inv move enabled
  cases again.deterministic took
  exact ⟨after, (if_pos enabled).trans ran, matched⟩

/-- `zmalloc` finds memory that is not in use. -/
def Fresh (zmalloc : Heap α (Event τ) → α) : Prop :=
  ∀ heap nodes loose, Holds heap nodes loose → heap (zmalloc heap) = none

variable {timeProc : TimeProc σ τ} {clock : Nat → When} {zmalloc : Heap α (Event τ) → α}
  {r : Running σ α τ} {p : TimeEvents.Pass σ τ} {kept nodes rest : List (TimeNode τ)}
  {maxId time : Int}

private theorem Plays.create (clock : Nat → When) (fresh : Fresh zmalloc)
    (plays : Plays time r (.inTimeProc maxId) p kept nodes) (event : Int × τ) :
    ∃ later, r.create clock zmalloc event = some later ∧
      Plays time later (.inTimeProc maxId) (TimeEvents.create clock p event) kept nodes := by
  obtain ⟨s, represents, agrees⟩ := plays.agenda
  have calls : s.Calls := by
    intro maxId walking
    cases agrees.phase.symm.trans walking
  have unused : (r.chain.heap (zmalloc r.chain.heap)).isNone := by
    obtain ⟨nodes, loose, holds⟩ := represents.holds
    exact Option.isNone_iff_eq_none.mpr (fresh _ _ _ holds)
  have took : s.Step (.create (some (zmalloc r.chain.heap)) event.1 event.2 false
      (clock r.readings)) _ := .created calls
  obtain ⟨chain, made, matched⟩ := represents.goes agrees.inv took unused
  refine ⟨{ r with chain, readings := r.readings + 1 }, ?_, plays.owner,
    congrArg (· + 1) plays.readings, plays.fired, _, matched, agrees.inv.step took, agrees.phase,
    agrees.ahead, ?_, ?_, congrArg (· + 1) agrees.count, agrees.last⟩
  · rw [Running.create, made]
    rfl
  · rw [List.map_cons, agrees.seen, plays.readings, Event.node_live rfl, agrees.count]
    rfl
  · intro e member
    obtain rfl | before := List.mem_cons.mp member
    · rfl
    · exact agrees.plain e before

private theorem Plays.creates (clock : Nat → When) (fresh : Fresh zmalloc) (events : List (Int × τ))
    (plays : Plays time r (.inTimeProc maxId) p kept nodes) :
    ∃ later, events.foldlM (Running.create clock zmalloc) r = some later ∧
      Plays time later (.inTimeProc maxId) (events.foldl (TimeEvents.create clock) p) kept nodes := by
  induction events generalizing r p with
  | nil => exact ⟨r, rfl, plays⟩
  | cons event rest ih =>
    obtain ⟨mid, made, onward⟩ := plays.create clock fresh event
    obtain ⟨later, ran, matched⟩ := ih onward
    refine ⟨later, ?_, matched⟩
    rw [List.foldlM_cons, made]
    exact ran

private theorem Plays.returned (clock : Nat → When) {te : TimeNode τ} (retval : Int)
    (plays : Plays time r (.inTimeProc maxId) p kept (te :: nodes)) :
    ∃ chain, r.chain.step (.returned retval (clock r.readings)) = some chain ∧
      Plays time
        { r with
          chain, readings := if retval ≠ AE_NOMORE then r.readings + 1 else r.readings }
        (.walking maxId)
        { p with readings := if retval ≠ AE_NOMORE then p.readings + 1 else p.readings }
        (kept ++ [returnedNode te retval (clock p.readings)]) nodes := by
  obtain ⟨s, represents, agrees⟩ := plays.agenda
  obtain ⟨e, events, here, rfl, rfl⟩ := List.map_eq_cons_iff.mp agrees.ahead
  have readings : (if retval ≠ AE_NOMORE then r.readings + 1 else r.readings) =
      if retval ≠ AE_NOMORE then p.readings + 1 else p.readings := by rw [plays.readings]
  by_cases more : retval = AE_NOMORE
  · have took : s.Step (.returned retval (clock r.readings) : Move α τ) _ :=
      .nomore e events maxId agrees.phase here more
    obtain ⟨chain, made, matched⟩ := represents.goes agrees.inv took rfl
    refine ⟨chain, made, plays.owner, readings, plays.fired, _, matched, ?_⟩
    have left : returnedNode e.node retval (clock p.readings) = e.ended.node := by
      rw [returnedNode, if_neg (not_not.mpr more), Event.node_ended (show e.ended.id = _ from rfl)]
      rfl
    rw [left]
    apply agrees.passed here took <;> rfl
  · have took : s.Step (.returned retval (clock r.readings) : Move α τ) _ :=
      .again e events maxId agrees.phase here more
    obtain ⟨chain, made, matched⟩ := represents.goes agrees.inv took rfl
    refine ⟨chain, made, plays.owner, readings, plays.fired, _, matched, ?_⟩
    have left : returnedNode e.node retval (clock p.readings) = Event.node
        { e with due := aeAddMillisecondsToNow retval (clock r.readings) } := by
      rw [returnedNode, if_pos more, plays.readings]
      rfl
    rw [left]
    apply agrees.passed here took <;> rfl

/-- The callback of the event the loop is at, and what follows it. -/
theorem Plays.call (clock : Nat → When) (fresh : Fresh zmalloc) {te : TimeNode τ} {id : Nat}
    (plays : Plays time r (.inTimeProc maxId) p kept (te :: nodes))
    (called : timeProc p.owner id clientData = some (next, events, retval)) :
    let later := events.foldl (TimeEvents.create clock)
      { p with owner := next, fired := p.fired ++ [id] }
    ∃ after, r.call timeProc clock zmalloc id clientData = some after ∧
      Plays time after (.walking maxId)
        { later with readings := if retval ≠ AE_NOMORE then later.readings + 1 else later.readings }
        (kept ++ [returnedNode te retval (clock later.readings)]) nodes := by
  intro later
  obtain ⟨s, represents, agrees⟩ := plays.agenda
  have begun : Plays time { r with owner := next, fired := r.fired ++ [id] } (.inTimeProc maxId)
      { p with owner := next, fired := p.fired ++ [id] } kept (te :: nodes) :=
    ⟨rfl, plays.readings, congrArg (· ++ [id]) plays.fired, s, represents, agrees.inv,
      agrees.phase, agrees.ahead, agrees.seen, agrees.plain, agrees.count, agrees.last⟩
  obtain ⟨mid, created, onward⟩ := begun.creates clock fresh events
  obtain ⟨chain, made, matched⟩ := onward.returned clock retval
  refine ⟨_, ?_, matched⟩
  simp only [Running.call, plays.owner, called, Option.bind_eq_bind, Option.bind_some, created,
    made]

/-- The body of the loop does to the chain what `TimeEvents.visit` does to the plain list. -/
theorem Plays.body (fresh : Fresh zmalloc) {te : TimeNode τ} {a : α}
    (plays : Plays time r (.walking maxId) p kept (te :: nodes))
    (walking : r.chain.stage = .walking (some a) maxId)
    (visited : TimeEvents.visit timeProc clock maxId p te = some (later, left)) :
    ∃ after, r.body timeProc clock zmalloc a maxId = some after ∧
      Plays time after (.walking maxId) later (kept ++ left) nodes := by
  obtain ⟨s, represents, agrees⟩ := plays.agenda
  obtain ⟨e, events, here, rfl, rfl⟩ := List.map_eq_cons_iff.mp agrees.ahead
  obtain ⟨cell, read, rfl⟩ := represents.at_event walking here
  by_cases past : cell.value.id = AE_DELETED_EVENT_ID
  · have plain := agrees.plain cell.value (List.mem_append_right _ (here ▸ List.mem_cons_self))
    have took : s.Step (.visit (clock r.readings) : Move α τ) _ :=
      .collected cell.value events maxId agrees.phase here past plain
    obtain ⟨chain, made, matched⟩ := represents.goes agrees.inv took rfl
    rw [Event.node_ended past] at visited
    cases visited
    refine ⟨{ r with chain }, ?_, plays.owner, plays.readings, plays.fired, _, matched,
      agrees.inv.step took, rfl, rfl, ?_, ?_, agrees.count, agrees.last⟩
    · simp only [Running.body, read, made, Option.bind_eq_bind, Option.bind_some, past, true_or,
        if_true]
    · rw [List.append_nil]
      exact agrees.seen
    · intro other member
      obtain before | after := List.mem_append.mp member
      · exact agrees.plain other (List.mem_append_left _ before)
      · exact agrees.plain other
          (List.mem_append_right _ (here ▸ List.mem_cons_of_mem _ after))
  · have named := (agrees.inv.at_head here).resolve_right past
    have node := Event.node_live named
    rw [node] at visited
    by_cases late : cell.value.id > maxId
    · have took : s.Step (.visit (clock r.readings) : Move α τ) _ :=
        .newer cell.value events maxId agrees.phase here past late
      obtain ⟨chain, made, matched⟩ := represents.goes agrees.inv took rfl
      have skipped : some (p, [cell.value.node]) = some (later, left) := by
        rw [node, ← visited]
        exact (if_pos (named ▸ late)).symm
      cases skipped
      refine ⟨{ r with chain }, ?_, plays.owner, plays.readings, plays.fired, _, matched, ?_⟩
      · simp only [Running.body, read, made, Option.bind_eq_bind, Option.bind_some, late, or_true,
          if_true]
      · apply agrees.passed here took <;> rfl
    have first : ¬ (cell.value.id = AE_DELETED_EVENT_ID ∨ cell.value.id > maxId) :=
      not_or.mpr ⟨past, late⟩
    have early : ¬ ((cell.value.born : Nat) : Int) > maxId := named ▸ late
    by_cases passed : Passed (clock r.readings) cell.value.due
    · have took : s.Step (.visit (clock r.readings) : Move α τ) _ :=
        .fired cell.value events maxId agrees.phase here past (Int.not_lt.mp late) passed
      obtain ⟨chain, made, matched⟩ := represents.goes agrees.inv took rfl
      have calling : Plays time { r with chain, readings := r.readings + 1 } (.inTimeProc maxId)
          { p with readings := p.readings + 1 } kept (cell.value.node :: events.map Event.node) :=
        ⟨plays.owner, congrArg (· + 1) plays.readings, plays.fired, _, matched,
          agrees.inv.step took, rfl, agrees.ahead, agrees.seen, agrees.plain, agrees.count, agrees.last⟩
      have due := plays.readings ▸ passed
      cases called : timeProc p.owner cell.value.born cell.value.clientData with
      | none => simp [TimeEvents.visit, early, due, called] at visited
      | some result =>
        obtain ⟨next, created, retval⟩ := result
        obtain ⟨after, ran, onward⟩ := calling.call clock fresh called
        refine ⟨after, ?_, ?_⟩
        · have number : cell.value.id.toNat = cell.value.born := by rw [named]; rfl
          simp only [Running.body, read, made, Option.bind_eq_bind, Option.bind_some, if_neg first,
            if_pos passed, number, ran]
        · rw [← node] at visited
          have back := visit_called (congrArg TimeNode.id node) early due called
          cases visited.symm.trans back
          exact onward
    · have took : s.Step (.visit (clock r.readings) : Move α τ) _ :=
        .waits cell.value events maxId agrees.phase here past (Int.not_lt.mp late) passed
      obtain ⟨chain, made, matched⟩ := represents.goes agrees.inv took rfl
      have due := plays.readings ▸ passed
      have waited : some ({ p with readings := p.readings + 1 }, [cell.value.node]) =
          some (later, left) := by
        rw [node, ← visited]
        simp [TimeEvents.visit, early, due]
      cases waited
      refine ⟨{ r with chain, readings := r.readings + 1 }, ?_, plays.owner,
        congrArg (· + 1) plays.readings, plays.fired, _, matched, ?_⟩
      · simp only [Running.body, read, made, Option.bind_eq_bind, Option.bind_some, if_neg first,
          if_neg passed]
      · apply agrees.passed here took <;> rfl

private theorem Plays.loop (fresh : Fresh zmalloc)
    (plays : Plays time r (.walking maxId) p kept nodes)
    (walked : TimeEvents.walk timeProc clock maxId p nodes = some (later, left))
    (enough : nodes.length < fuel) :
    ∃ after, r.loop timeProc clock zmalloc fuel = some after ∧
      Plays time after .idle later (kept ++ left) [] := by
  induction nodes generalizing r p kept left fuel with
  | nil =>
    cases walked
    obtain ⟨s, represents, agrees⟩ := plays.agenda
    have all := List.map_eq_nil_iff.mp agrees.ahead
    obtain ⟨te, stage, last⟩ := represents.walking agrees.phase
    cases last.mpr all
    have took : s.Step (.finish : Move α τ) _ := .finished agrees.phase all
    obtain ⟨chain, made, matched⟩ := represents.goes agrees.inv took rfl
    cases fuel with
    | zero => cases enough
    | succ fuel =>
      refine ⟨{ r with chain }, ?_, plays.owner, plays.readings, plays.fired, _, matched,
        agrees.inv.step took, rfl, agrees.ahead, ?_, agrees.plain, agrees.count, agrees.last⟩
      · simp only [Running.loop, stage, made, Option.map_some]
      · rw [List.append_nil]
        exact agrees.seen
  | cons te nodes ih =>
    obtain ⟨s, represents, agrees⟩ := plays.agenda
    obtain ⟨e, events, here, -, -⟩ := List.map_eq_cons_iff.mp agrees.ahead
    obtain ⟨pointer, stage, last⟩ := represents.walking agrees.phase
    cases pointer with
    | none => cases here.symm.trans (last.mp rfl)
    | some a =>
      obtain ⟨⟨mid, first⟩, visited, onward⟩ := Option.bind_eq_some_iff.mp walked
      obtain ⟨⟨final, rest⟩, onto, ended⟩ := Option.bind_eq_some_iff.mp onward
      cases ended
      cases fuel with
      | zero => cases enough
      | succ fuel =>
        obtain ⟨next, made, matched⟩ := plays.body fresh stage visited
        obtain ⟨after, ran, past⟩ := ih matched onto (Nat.lt_of_succ_lt_succ enough)
        rw [List.append_assoc] at past
        refine ⟨after, ?_, past⟩
        simp only [Running.loop, stage, made, Option.bind_eq_bind, Option.bind_some, ran]

end

/-! ## Programs -/

/-- What a program does with time events from outside of a pass. -/
inductive Op (τ : Type) where
  | create (milliseconds : Int) (clientData : τ) (now : When)
  | pass (now : Int) (clock : Nat → When)

/-- The plain list, with the program around it and the callbacks made. -/
def listStep (timeProc : TimeProc σ τ) (s : σ × TimerList τ × List Nat) :
    Op τ → Option (σ × TimerList τ × List Nat)
  | .create milliseconds clientData now =>
    let timers := s.2.1
    let event := ⟨some timers.timeEventNextId, aeAddMillisecondsToNow milliseconds now, clientData⟩
    some (s.1, { timers with
      timeEventNextId := timers.timeEventNextId + 1
      timeEventHead := event :: timers.timeEventHead }, s.2.2)
  | .pass now clock => do
    let (owner, timers, fired) ← TimeEvents.processTimeEvents timeProc clock now s.1 s.2.1
    some (owner, timers, s.2.2 ++ fired)

/-- The chain, with the same program. -/
def chainStep [DecidableEq α] (timeProc : TimeProc σ τ) (zmalloc : Heap α (Event τ) → α)
    (s : σ × Chain α τ × List Nat) : Op τ → Option (σ × Chain α τ × List Nat)
  | .create milliseconds clientData now => do
    let chain ← s.2.1.step (.create (some (zmalloc s.2.1.heap)) milliseconds clientData false now)
    some (s.1, chain, s.2.2)
  | .pass now clock => do
    let r ← Running.processTimeEvents timeProc clock zmalloc now s.1 s.2.1
    some (r.owner, r.chain, s.2.2 ++ r.fired)

/-- The chain keeps these events. -/
def Keeps (c : Chain α τ) (timers : TimerList τ) : Prop :=
  ∃ s, Represents c s ∧ s.Inv ∧ s.phase = .idle ∧
    s.seen.map Event.node = timers.timeEventHead ∧ (∀ e ∈ s.listed, e.finalizerProc = false) ∧
    s.timeEventNextId = timers.timeEventNextId ∧ s.lastTime = timers.lastTime

private theorem start_keeps (now : Int) : Keeps (Chain.start now : Chain α τ) ⟨0, [], now⟩ := by
  refine ⟨_, start_represents now, Agenda.start_inv now, rfl, rfl, ?_, rfl, rfl⟩
  intro e member
  cases member

section
variable [DecidableEq α] {timeProc : TimeProc σ τ} {zmalloc : Heap α (Event τ) → α}

private theorem Keeps.create {c : Chain α τ} {timers : TimerList τ} (fresh : Fresh zmalloc)
    (keeps : Keeps c timers) (milliseconds : Int) (clientData : τ) (now : When) :
    ∃ after, c.step (.create (some (zmalloc c.heap)) milliseconds clientData false now) =
        some after ∧
      Keeps after { timers with
        timeEventNextId := timers.timeEventNextId + 1
        timeEventHead := ⟨some timers.timeEventNextId, aeAddMillisecondsToNow milliseconds now,
          clientData⟩ :: timers.timeEventHead } := by
  obtain ⟨s, represents, inv, idle, listed, plain, count, last⟩ := keeps
  have calls : s.Calls := by
    intro maxId walking
    cases idle.symm.trans walking
  obtain ⟨nodes, loose, holds⟩ := represents.holds
  have took : s.Step (.create (some (zmalloc c.heap)) milliseconds clientData false now) _ :=
    .created calls
  obtain ⟨after, made, matched⟩ :=
    represents.goes inv took (Option.isNone_iff_eq_none.mpr (fresh _ _ _ holds))
  refine ⟨after, made, _, matched, inv.step took, idle, ?_, ?_, congrArg (· + 1) count, last⟩
  · rw [List.map_cons, listed, Event.node_live rfl, count]
  · intro e member
    obtain rfl | before := List.mem_cons.mp member
    · rfl
    · exact plain e before

private theorem Keeps.pass {c : Chain α τ} {timers after : TimerList τ} {owner next : σ}
    {clock : Nat → When} (fresh : Fresh zmalloc) (keeps : Keeps c timers) {now : Int}
    (passed : TimeEvents.processTimeEvents timeProc clock now owner timers =
      some (next, after, fired)) :
    ∃ r, Running.processTimeEvents timeProc clock zmalloc now owner c = some r ∧
      r.owner = next ∧ r.fired = fired ∧ Keeps r.chain after := by
  obtain ⟨s, represents, inv, idle, listed, plain, count, last⟩ := keeps
  have took : s.Step (.enter now : Move α τ) _ := .entered idle
  obtain ⟨chain, made, matched⟩ := represents.goes inv took rfl
  obtain ⟨⟨p, nodes⟩, walked, ended⟩ := Option.bind_eq_some_iff.mp passed
  cases ended
  have nodes : (if now < s.lastTime then s.seen.map Event.rewound else s.seen).map Event.node =
      TimeEvents.rewound now timers := by
    rw [TimeEvents.rewound, last, ← listed]
    split
    · rw [List.map_map, List.map_map]
      rfl
    · rfl
  have all : s.listed = s.seen := by rw [Agenda.listed, inv.idle idle, List.append_nil]
  have begun : Plays now ⟨owner, 0, [], chain⟩ (.walking (timers.timeEventNextId - 1))
      ⟨owner, timers.timeEventNextId, [], 0, []⟩ [] (TimeEvents.rewound now timers) := by
    refine ⟨rfl, rfl, rfl, _, matched, inv.step took, ?_, nodes, rfl, ?_, count, rfl⟩
    · rw [← count]
    · intro e member
      rw [Agenda.listed, List.nil_append] at member
      split at member
      · obtain ⟨e, before, rfl⟩ := List.mem_map.mp member
        exact plain e (all ▸ before)
      · exact plain e (all ▸ member)
  have enough : (TimeEvents.rewound now timers).length < chain.timeEventNextId + 1 := by
    have bound := all ▸ inv.length_le
    rw [matched.count_eq, ← nodes, List.length_map]
    split
    · rw [List.length_map]
      exact Nat.lt_succ_of_le bound
    · exact Nat.lt_succ_of_le bound
  obtain ⟨r, ran, plays⟩ := begun.loop fresh walked enough
  obtain ⟨later, kept, agrees⟩ := plays.agenda
  refine ⟨r, ?_, plays.owner, plays.fired, later, kept, agrees.inv, agrees.phase, agrees.seen,
    agrees.plain, agrees.count, agrees.last⟩
  simp only [Running.processTimeEvents, made, Option.bind_eq_bind, Option.bind_some, ran]

private theorem program_step (fresh : Fresh zmalloc) {owner next : σ} {c : Chain α τ}
    {timers later : TimerList τ} {earlier fired : List Nat} (keeps : Keeps c timers)
    (made : listStep timeProc (owner, timers, earlier) op = some (next, later, fired)) :
    ∃ after, chainStep timeProc zmalloc (owner, c, earlier) op = some (next, after, fired) ∧
      Keeps after later := by
  cases op with
  | create milliseconds clientData now =>
    obtain ⟨after, stepped, kept⟩ := keeps.create fresh milliseconds clientData now
    cases made
    refine ⟨after, ?_, kept⟩
    simp only [chainStep, stepped, Option.bind_eq_bind, Option.bind_some]
  | pass now clock =>
    obtain ⟨⟨owner, timers, calls⟩, passed, ended⟩ := Option.bind_eq_some_iff.mp made
    cases ended
    obtain ⟨r, ran, rfl, rfl, kept⟩ := keeps.pass fresh passed
    refine ⟨r.chain, ?_, kept⟩
    simp only [chainStep, ran, Option.bind_eq_bind, Option.bind_some]

private theorem program_run (fresh : Fresh zmalloc) {owner next : σ} {c : Chain α τ}
    {before timers : TimerList τ} {earlier fired : List Nat} (keeps : Keeps c before)
    (ran : run (listStep timeProc) (owner, before, earlier) ops = some (next, timers, fired)) :
    ∃ after, run (chainStep timeProc zmalloc) (owner, c, earlier) ops =
        some (next, after, fired) ∧ Keeps after timers := by
  induction ops generalizing c before earlier owner with
  | nil =>
    cases ran
    exact ⟨c, rfl, keeps⟩
  | cons op rest ih =>
    obtain ⟨⟨mid, later, calls⟩, made, onward⟩ := run_cons.mp ran
    obtain ⟨after, stepped, kept⟩ := program_step fresh keeps made
    obtain ⟨last, reached, ended⟩ := ih kept onward
    exact ⟨last, run_cons.mpr ⟨_, stepped, reached⟩, ended⟩

/-- A program whose callbacks create events and return when they are due next does the same on
the chain of cells as on the plain list, pass after pass: the same callbacks in the same order,
and at the end the same events. The chain never reaches memory that is not allocated. -/
theorem chain_runs_program (fresh : Fresh zmalloc) {owner : σ}
    (ran : run (listStep timeProc) (owner, ⟨0, [], now⟩, []) ops = some (next, timers, fired)) :
    ∃ c, run (chainStep timeProc zmalloc) (owner, Chain.start now, []) ops =
        some (next, c, fired) ∧ Keeps c timers :=
  program_run fresh (start_keeps now) ran

end

/-- Memory never runs out where there is enough of it. -/
theorem exists_fresh [Infinite α] : ∃ zmalloc : Heap α (Event τ) → α, Fresh zmalloc := by
  classical
  have unused : ∀ heap : Heap α (Event τ), ∃ te,
      ∀ nodes loose, Holds heap nodes loose → heap te = none := by
    intro heap
    by_cases held : ∃ nodes loose, Holds heap nodes loose
    · obtain ⟨nodes, loose, holds⟩ := held
      obtain ⟨te, out⟩ := Infinite.exists_notMem_finset (addresses (nodes ++ loose)).toFinset
      refine ⟨te, fun _ _ _ => not_not.mp fun allocated => out ?_⟩
      exact List.mem_toFinset.mpr (holds.only te allocated)
    · obtain ⟨te⟩ := (inferInstance : Nonempty α)
      exact ⟨te, fun nodes loose holds => (held ⟨nodes, loose, holds⟩).elim⟩
  choose zmalloc fresh using unused
  exact ⟨zmalloc, fresh⟩

/-- Event 0 counts how often it was called, creates an event the first time and ends with the
second; the events it creates end at once. -/
def countsToTwo : TimeProc Nat Bool
  | calls, _, true =>
    some (calls + 1, if calls = 0 then [(0, false)] else [], if calls = 0 then 10 else AE_NOMORE)
  | calls, _, false => some (calls, [], AE_NOMORE)

theorem countsToTwo_on_chain :
    ∃ (zmalloc : Heap Nat (Event Bool) → Nat) (c : Chain Nat Bool), Fresh zmalloc ∧
      run (chainStep countsToTwo zmalloc) (0, Chain.start 0, [])
        [.create 0 true ⟨0, 0⟩, .pass 1 fun _ => ⟨1, 0⟩, .pass 2 fun _ => ⟨2, 0⟩] =
          some (2, c, [0, 1, 0]) ∧
      Keeps c ⟨2, [⟨none, ⟨1, 0⟩, false⟩, ⟨none, ⟨1, 10⟩, true⟩], 2⟩ := by
  obtain ⟨zmalloc, fresh⟩ := exists_fresh (α := Nat) (τ := Bool)
  have ran : run (listStep countsToTwo) (0, ⟨0, [], 0⟩, [])
      [.create 0 true ⟨0, 0⟩, .pass 1 fun _ => ⟨1, 0⟩, .pass 2 fun _ => ⟨2, 0⟩] =
        some (2, ⟨2, [⟨none, ⟨1, 0⟩, false⟩, ⟨none, ⟨1, 10⟩, true⟩], 2⟩, [0, 1, 0]) := by
    decide +kernel
  obtain ⟨c, reached, keeps⟩ := chain_runs_program fresh ran
  exact ⟨zmalloc, c, fresh, reached, keeps⟩

end TcpCongestion.TimerChain
