import Mathlib.Data.List.Range
import Mathlib.Data.List.Perm.Subperm
import TcpCongestion.LinkedCells
import TcpCongestion.TimeEvents

/-! The time events of `thirdparty/redisnet/ae.c` as the code keeps them, in cells linked both
ways: `aeCreateTimeEvent`, `aeDeleteTimeEvent` and the loop of `processTimeEvents` with its
finalizers, read and written through pointers. Callbacks may create and delete events while a
pass is under way; what they do are moves of their own between the steps of the pass. A callback
does not run the loop again. An `Agenda` says without pointers what the list means, and the
chain of cells refines it. -/
namespace TcpCongestion.TimerChain
open Runs LinkedCells TimeEvents

def AE_OK : Int := 0
def AE_ERR : Int := -1
def AE_DELETED_EVENT_ID : Int := -1

/-- An `aeTimeEvent` but for its links and its callbacks; `finalizerProc` tells whether there is
one. The code does not have `born`, the id the event got, of which `id` keeps no trace once the
event has ended. -/
structure Event (τ : Type) where
  id : Int
  due : When
  finalizerProc : Bool
  clientData : τ
  born : Nat

/-- What happens to the event that was born with a number. A call of `timeProc` comes with the id
it gets, and an event that is not due yet with what was read of the clock at its turn. -/
inductive Entry where
  | created (born : Nat) (finalizerProc : Bool)
  | timeProc (born : Nat) (id : Int)
  | early (born : Nat) (now : When)
  | ended (born : Nat)
  | finalizerProc (born : Nat)
  | freed (born : Nat)
  deriving DecidableEq, Repr

/-- Where control is: outside of `processTimeEvents`, at the head of its loop, or in a callback
that it made. The local variables are `te`, `next` and `maxId`. -/
inductive Stage (α : Type) where
  | idle
  | walking (te : Option α) (maxId : Int)
  | inTimeProc (te : α) (maxId : Int)
  | inFinalizer (te : α) (next : Option α) (maxId : Int)
  deriving DecidableEq

/-- The members of the loop that concern time events, the memory they are in, where control is,
and what has happened so far. -/
structure Chain (α τ : Type) where
  heap : Heap α (Event τ)
  timeEventHead : Option α
  timeEventNextId : Nat
  lastTime : Int
  stage : Stage α
  log : List Entry

/-- The steps of the loop and of the callbacks. `create` comes with what `zmalloc` returns,
steps that read the clock with what they read. -/
inductive Move (α τ : Type) where
  | create (address : Option α) (milliseconds : Int) (clientData : τ) (finalizerProc : Bool)
      (now : When)
  | delete (id : Int)
  | enter (now : Int)
  | visit (now : When)
  | returned (retval : Int) (now : When)
  | finalized
  | finish

variable {α τ : Type}

/-- `te->id = AE_DELETED_EVENT_ID`. -/
def Event.ended (e : Event τ) : Event τ := { e with id := AE_DELETED_EVENT_ID }

/-- An event that is marked as deleted ends, unless it already had. -/
def Event.ending (e : Event τ) : List Entry :=
  if e.id = AE_DELETED_EVENT_ID then [] else [.ended e.born]

/-- `te->when_sec = 0`. -/
def Event.rewound (e : Event τ) : Event τ := { e with due := { e.due with sec := 0 } }

namespace Chain

/-- `aeCreateEventLoop`. -/
def start (now : Int) : Chain α τ := ⟨fun _ => none, none, 0, now, .idle, []⟩

/-- What has happened. -/
def note (c : Chain α τ) (entries : List Entry) : Chain α τ := { c with log := c.log ++ entries }

variable [DecidableEq α]

def aeCreateTimeEvent (c : Chain α τ) (address : Option α) (milliseconds : Int) (clientData : τ)
    (finalizerProc : Bool) (now : When) : Option (Chain α τ × Int) :=
  let id := c.timeEventNextId
  let c := { c with timeEventNextId := c.timeEventNextId + 1 }
  match address with
  | none => some (c, AE_ERR)
  | some te => do
    let due := aeAddMillisecondsToNow milliseconds now
    let heap ← pushFront c.heap c.timeEventHead te ⟨id, due, finalizerProc, clientData, id⟩
    let c := { c with heap, timeEventHead := some te }
    some (c.note [.created id finalizerProc], id)

/-- The list has no more events than there were ids. -/
def aeDeleteTimeEvent (c : Chain α τ) (id : Int) : Option (Chain α τ × Int) := do
  let found ← search c.heap (fun e => e.id = id) (c.timeEventNextId + 1) c.timeEventHead
  match found with
  | none => some (c, AE_ERR)
  | some te =>
    let cell ← c.heap te
    let heap ← setValue c.heap te Event.ended
    some (({ c with heap } : Chain α τ).note cell.value.ending, AE_OK)

/-- `processTimeEvents` up to its loop, with `now` on the wall clock. -/
def processTimeEvents (c : Chain α τ) (now : Int) : Option (Chain α τ) := do
  let heap ← if now < c.lastTime then
      setAll Event.rewound (c.timeEventNextId + 1) c.heap c.timeEventHead
    else some c.heap
  some { c with
    heap, lastTime := now, stage := .walking c.timeEventHead (c.timeEventNextId - 1) }

/-- The body of the loop, up to its end or to the callback it makes. -/
def visit (c : Chain α τ) (te : α) (maxId : Int) (now : When) : Option (Chain α τ) := do
  let cell ← c.heap te
  let e := cell.value
  if e.id = AE_DELETED_EVENT_ID then
    let next := cell.next
    let (heap, timeEventHead) ← unlink c.heap c.timeEventHead te
    if e.finalizerProc then
      let c := { c with heap, timeEventHead, stage := .inFinalizer te next maxId }
      some (c.note [.finalizerProc e.born])
    else
      let heap ← free heap te
      let c := { c with heap, timeEventHead, stage := .walking next maxId }
      some (c.note [.freed e.born])
  else if e.id > maxId then some { c with stage := .walking cell.next maxId }
  else if Passed now e.due then
    let c := { c with stage := .inTimeProc te maxId }
    some (c.note [.timeProc e.born e.id])
  else
    let c := { c with stage := .walking cell.next maxId }
    some (c.note [.early e.born now])

/-- The rest of the body, after `timeProc` returned. -/
def returned (c : Chain α τ) (te : α) (maxId : Int) (retval : Int) (now : When) :
    Option (Chain α τ) := do
  let cell ← c.heap te
  if retval ≠ AE_NOMORE then
    let heap ← setValue c.heap te fun e => { e with due := aeAddMillisecondsToNow retval now }
    let next := (← heap te).next
    some { c with heap, stage := .walking next maxId }
  else
    let heap ← setValue c.heap te Event.ended
    let next := (← heap te).next
    let c := { c with heap, stage := .walking next maxId }
    some (c.note cell.value.ending)

/-- The rest of the body, after `finalizerProc` returned. -/
def finalized (c : Chain α τ) (te : α) (next : Option α) (maxId : Int) : Option (Chain α τ) := do
  let cell ← c.heap te
  let heap ← free c.heap te
  let c := { c with heap, stage := .walking next maxId }
  some (c.note [.freed cell.value.born])

/-- What can happen where control is. -/
def takes : Stage α → Move α τ → Bool
  | .idle, .create _ _ _ _ _ => true
  | .idle, .delete _ => true
  | .idle, .enter _ => true
  | .walking te _, .visit _ => te.isSome
  | .walking te _, .finish => te.isNone
  | .inTimeProc _ _, .create _ _ _ _ _ => true
  | .inTimeProc _ _, .delete _ => true
  | .inTimeProc _ _, .returned _ _ => true
  | .inFinalizer _ _ _, .create _ _ _ _ _ => true
  | .inFinalizer _ _ _, .delete _ => true
  | .inFinalizer _ _ _, .finalized => true
  | _, _ => false

/-- `zmalloc` finds memory that is not in use. -/
def unused (c : Chain α τ) : Move α τ → Bool
  | .create (some te) _ _ _ _ => (c.heap te).isNone
  | _ => true

def Enabled (c : Chain α τ) (move : Move α τ) : Prop :=
  takes c.stage move = true ∧ c.unused move = true

instance (c : Chain α τ) (move : Move α τ) : Decidable (c.Enabled move) :=
  inferInstanceAs (Decidable (_ ∧ _))

/-- No result means that memory was read or written that is not allocated, or that a walk over
the list did not come to an end. -/
def exec (c : Chain α τ) : Move α τ → Option (Chain α τ)
  | .create address milliseconds clientData finalizerProc now =>
    (c.aeCreateTimeEvent address milliseconds clientData finalizerProc now).map Prod.fst
  | .delete id => (c.aeDeleteTimeEvent id).map Prod.fst
  | .enter now => c.processTimeEvents now
  | .visit now => match c.stage with
    | .walking (some te) maxId => c.visit te maxId now
    | _ => none
  | .returned retval now => match c.stage with
    | .inTimeProc te maxId => c.returned te maxId retval now
    | _ => none
  | .finalized => match c.stage with
    | .inFinalizer te next maxId => c.finalized te next maxId
    | _ => none
  | .finish => some { c with stage := .idle }

def step (c : Chain α τ) (move : Move α τ) : Option (Chain α τ) :=
  if c.Enabled move then c.exec move else none

end Chain

/-! ## What the list means -/

/-- Where the agenda is in a pass. An event whose finalizer runs is on no list any more. -/
inductive Phase (τ : Type) where
  | idle
  | walking (maxId : Int)
  | inTimeProc (maxId : Int)
  | inFinalizer (e : Event τ) (maxId : Int)

/-- The events in the order of the list: those the pass has behind it, or all outside of a pass,
and those it still has to visit. -/
structure Agenda (τ : Type) where
  seen : List (Event τ)
  ahead : List (Event τ)
  timeEventNextId : Nat
  lastTime : Int
  phase : Phase τ
  log : List Entry

/-- The events named `id` end. -/
def Event.endIf (id : Int) (e : Event τ) : Event τ := if e.id = id then e.ended else e

def Event.endings (id : Int) (e : Event τ) : List Entry := if e.id = id then e.ending else []

namespace Agenda

def start (now : Int) : Agenda τ := ⟨[], [], 0, now, .idle, []⟩

def listed (s : Agenda τ) : List (Event τ) := s.seen ++ s.ahead

/-- The program is outside of the loop or in a callback. -/
def Calls (s : Agenda τ) : Prop := ∀ maxId, s.phase ≠ .walking maxId

inductive Step : Agenda τ → Move α τ → Agenda τ → Prop
  | refused (calls : s.Calls) :
    Step s (.create none milliseconds clientData finalizerProc now)
      { s with timeEventNextId := s.timeEventNextId + 1 }
  | created (calls : s.Calls) :
    Step s (.create (some te) milliseconds clientData finalizerProc now)
      { s with
        timeEventNextId := s.timeEventNextId + 1
        seen := ⟨s.timeEventNextId, aeAddMillisecondsToNow milliseconds now, finalizerProc,
          clientData, s.timeEventNextId⟩ :: s.seen
        log := s.log ++ [.created s.timeEventNextId finalizerProc] }
  | deleted (calls : s.Calls) :
    Step s (.delete named)
      { s with
        seen := s.seen.map (Event.endIf named)
        ahead := s.ahead.map (Event.endIf named)
        log := s.log ++ s.listed.flatMap (Event.endings named) }
  | entered (idle : s.phase = .idle) :
    Step s (.enter now)
      { s with
        seen := []
        ahead := if now < s.lastTime then s.seen.map Event.rewound else s.seen
        lastTime := now
        phase := .walking (s.timeEventNextId - 1) }
  | collected (e : Event τ) (rest : List (Event τ)) (maxId : Int)
      (walking : s.phase = .walking maxId) (here : s.ahead = e :: rest)
      (past : e.id = AE_DELETED_EVENT_ID) (plain : e.finalizerProc = false) :
    Step s (.visit now)
      { s with ahead := rest, phase := .walking maxId, log := s.log ++ [.freed e.born] }
  | unlinked (e : Event τ) (rest : List (Event τ)) (maxId : Int)
      (walking : s.phase = .walking maxId) (here : s.ahead = e :: rest)
      (past : e.id = AE_DELETED_EVENT_ID) (last : e.finalizerProc = true) :
    Step s (.visit now)
      { s with
        ahead := rest, phase := .inFinalizer e maxId, log := s.log ++ [.finalizerProc e.born] }
  | newer (e : Event τ) (rest : List (Event τ)) (maxId : Int)
      (walking : s.phase = .walking maxId) (here : s.ahead = e :: rest)
      (live : e.id ≠ AE_DELETED_EVENT_ID) (late : e.id > maxId) :
    Step s (.visit now) { s with seen := s.seen ++ [e], ahead := rest, phase := .walking maxId }
  | fired (e : Event τ) (rest : List (Event τ)) (maxId : Int)
      (walking : s.phase = .walking maxId) (here : s.ahead = e :: rest)
      (live : e.id ≠ AE_DELETED_EVENT_ID) (old : e.id ≤ maxId) (passed : Passed now e.due) :
    Step s (.visit now)
      { s with phase := .inTimeProc maxId, log := s.log ++ [.timeProc e.born e.id] }
  | waits (e : Event τ) (rest : List (Event τ)) (maxId : Int)
      (walking : s.phase = .walking maxId) (here : s.ahead = e :: rest)
      (live : e.id ≠ AE_DELETED_EVENT_ID) (old : e.id ≤ maxId) (early : ¬ Passed now e.due) :
    Step s (.visit now)
      { s with
        seen := s.seen ++ [e], ahead := rest, phase := .walking maxId
        log := s.log ++ [.early e.born now] }
  | again (e : Event τ) (rest : List (Event τ)) (maxId : Int)
      (calling : s.phase = .inTimeProc maxId) (here : s.ahead = e :: rest)
      (more : retval ≠ AE_NOMORE) :
    Step s (.returned retval now)
      { s with
        seen := s.seen ++ [{ e with due := aeAddMillisecondsToNow retval now }]
        ahead := rest
        phase := .walking maxId }
  | nomore (e : Event τ) (rest : List (Event τ)) (maxId : Int)
      (calling : s.phase = .inTimeProc maxId) (here : s.ahead = e :: rest)
      (past : retval = AE_NOMORE) :
    Step s (.returned retval now)
      { s with
        seen := s.seen ++ [e.ended]
        ahead := rest
        phase := .walking maxId
        log := s.log ++ e.ending }
  | finalized (e : Event τ) (maxId : Int) (calling : s.phase = .inFinalizer e maxId) :
    Step s .finalized { s with phase := .walking maxId, log := s.log ++ [.freed e.born] }
  | finished (walking : s.phase = .walking maxId) (all : s.ahead = []) :
    Step s .finish { s with phase := .idle }

/-- One step after the other. -/
inductive Steps : Agenda τ → List (Move α τ) → Agenda τ → Prop
  | nil : Steps s [] s
  | cons (took : Step s move mid) (onward : Steps mid moves last) : Steps s (move :: moves) last

/-! ## The order of the list -/

/-- The ids the events got, in the order of the list. -/
def ids (events : List (Event τ)) : List Nat := events.map Event.born

def Phase.maxId : Phase τ → Option Int
  | .idle => none
  | .walking maxId => some maxId
  | .inTimeProc maxId => some maxId
  | .inFinalizer _ maxId => some maxId

/-- The newest event comes first. The events a pass has ahead of it were there when it began. -/
structure Inv (s : Agenda τ) : Prop where
  sorted : (ids s.listed).Pairwise (· > ·)
  known : ∀ id ∈ ids s.listed, id < s.timeEventNextId
  named : ∀ e ∈ s.listed, e.id = e.born ∨ e.id = AE_DELETED_EVENT_ID
  idle : s.phase = .idle → s.ahead = []
  old : ∀ maxId, Phase.maxId s.phase = some maxId → ∀ id ∈ ids s.ahead, (id : Int) ≤ maxId

private theorem ids_append (first second : List (Event τ)) :
    ids (first ++ second) = ids first ++ ids second :=
  List.map_append

@[simp] theorem ids_map_endIf (named : Int) (events : List (Event τ)) :
    ids (events.map (Event.endIf named)) = ids events := by
  rw [ids, List.map_map]
  apply List.map_congr_left
  intro e _
  simp only [Function.comp, Event.endIf]
  split <;> rfl

@[simp] theorem ids_map_rewound (events : List (Event τ)) :
    ids (events.map Event.rewound) = ids events :=
  List.map_map

theorem start_inv (now : Int) : (start now : Agenda τ).Inv where
  sorted := List.Pairwise.nil
  known _ member := by cases member
  named _ member := by cases member
  idle _ := rfl
  old _ passing := by cases passing

/-- A step that only takes events away, or changes them in place, keeps the order. -/
theorem Inv.fewer {s next : Agenda τ} (inv : s.Inv)
    (listed : (ids next.listed).Sublist (ids s.listed))
    (count : s.timeEventNextId ≤ next.timeEventNextId)
    (named : ∀ e ∈ next.listed, e.id = e.born ∨ e.id = AE_DELETED_EVENT_ID)
    (idle : next.phase = .idle → next.ahead = [])
    (old : ∀ maxId, Phase.maxId next.phase = some maxId → ∀ id ∈ ids next.ahead, (id : Int) ≤ maxId) :
    next.Inv where
  sorted := inv.sorted.sublist listed
  known id member := (inv.known id (listed.subset member)).trans_le count
  named := named
  idle := idle
  old := old

/-- The event the pass is at. -/
theorem Inv.at_head {s : Agenda τ} {e : Event τ} {rest : List (Event τ)} (inv : s.Inv)
    (here : s.ahead = e :: rest) : e.id = e.born ∨ e.id = AE_DELETED_EVENT_ID :=
  inv.named e (List.mem_append_right _ (here ▸ List.mem_cons_self))

private theorem endIf_named {named : Int} {e : Event τ}
    (was : e.id = e.born ∨ e.id = AE_DELETED_EVENT_ID) :
    (e.endIf named).id = (e.endIf named).born ∨ (e.endIf named).id = AE_DELETED_EVENT_ID := by
  rw [Event.endIf]
  split
  · exact .inr rfl
  · exact was

/-- The pass goes past an event, which may have changed. -/
theorem Inv.passed {s : Agenda τ} {e left : Event τ} {rest : List (Event τ)} (inv : s.Inv)
    (here : s.ahead = e :: rest) (passing : Phase.maxId s.phase = some maxId)
    (same : left.born = e.born) (named : left.id = left.born ∨ left.id = AE_DELETED_EVENT_ID)
    (log : List Entry) :
    (⟨s.seen ++ [left], rest, s.timeEventNextId, s.lastTime, .walking maxId, log⟩ :
      Agenda τ).Inv := by
  have all : s.listed = s.seen ++ e :: rest := congrArg (s.seen ++ ·) here
  refine inv.fewer ?_ le_rfl ?_ (by rintro ⟨⟩) ?_
  · rw [all, listed, ← List.append_cons, ids_append, ids_append, ids, ids, List.map_cons, same]
    exact List.Sublist.refl _
  · intro other member
    rw [listed, ← List.append_cons] at member
    obtain before | rfl | after := (List.mem_append.trans (or_congr_right List.mem_cons)).mp member
    · exact inv.named other (all ▸ List.mem_append_left _ before)
    · exact named
    · exact inv.named other (all ▸ List.mem_append_right _ (List.mem_cons_of_mem _ after))
  · rintro maxId ⟨⟩ id member
    exact inv.old maxId passing id (here ▸ List.mem_cons_of_mem _ member)

/-- The pass takes an event out of the list. -/
theorem Inv.taken {s : Agenda τ} {e : Event τ} {rest : List (Event τ)} {phase : Phase τ}
    (inv : s.Inv) (here : s.ahead = e :: rest) (passing : Phase.maxId s.phase = some maxId)
    (still : Phase.maxId phase = some maxId) (log : List Entry) :
    (⟨s.seen, rest, s.timeEventNextId, s.lastTime, phase, log⟩ : Agenda τ).Inv := by
  have all : s.listed = s.seen ++ e :: rest := congrArg (s.seen ++ ·) here
  have fewer : (s.seen ++ rest).Sublist s.listed :=
    all ▸ List.Sublist.append_left (List.sublist_cons_self _ _) _
  refine inv.fewer (fewer.map _) le_rfl (fun other member => inv.named other (fewer.subset member))
    ?_ ?_
  · rintro rfl
    cases still
  · intro other same id member
    cases still.symm.trans same
    exact inv.old maxId passing id (here ▸ List.mem_cons_of_mem _ member)

theorem Inv.step {s next : Agenda τ} {move : Move α τ} (inv : s.Inv) (took : s.Step move next) :
    next.Inv := by
  cases took with
  | refused calls =>
    exact inv.fewer (List.Sublist.refl _) (Nat.le_succ _) inv.named inv.idle inv.old
  | @created _ te milliseconds clientData finalizerProc now calls =>
    refine ⟨List.pairwise_cons.mpr ⟨inv.known, inv.sorted⟩, ?_, ?_, inv.idle, inv.old⟩
    · intro id member
      obtain rfl | before := List.mem_cons.mp member
      · exact Nat.lt_succ_self _
      · exact (inv.known id before).trans (Nat.lt_succ_self _)
    · intro e member
      obtain rfl | before := List.mem_cons.mp member
      · exact .inl rfl
      · exact inv.named e before
  | @deleted _ named calls =>
    refine inv.fewer ?_ le_rfl ?_ (fun idle => ?_) fun maxId passing id member => ?_
    · rw [listed, ids_append, ids_map_endIf, ids_map_endIf, ← ids_append]
      exact List.Sublist.refl _
    · intro e member
      rw [listed, ← List.map_append] at member
      obtain ⟨e, before, rfl⟩ := List.mem_map.mp member
      exact endIf_named (inv.named e before)
    · exact List.map_eq_nil_iff.mpr (inv.idle idle)
    · rw [ids_map_endIf] at member
      exact inv.old maxId passing id member
  | @entered _ now idle =>
    have all : s.listed = s.seen := by rw [listed, inv.idle idle, List.append_nil]
    have same : ids (if now < s.lastTime then s.seen.map Event.rewound else s.seen) =
        ids s.listed := by
      rw [all]
      split
      · exact ids_map_rewound _
      · rfl
    refine inv.fewer (same ▸ List.Sublist.refl _) le_rfl ?_ (by rintro ⟨⟩) ?_
    · intro e member
      rw [listed, List.nil_append] at member
      split at member
      · obtain ⟨e, before, rfl⟩ := List.mem_map.mp member
        exact inv.named e (all ▸ before)
      · exact inv.named e (all ▸ member)
    · rintro maxId ⟨⟩ id member
      have below := inv.known id (same ▸ member)
      omega
  | collected e rest maxId walking here past plain => exact inv.taken here (walking ▸ rfl) rfl _
  | unlinked e rest maxId walking here past last => exact inv.taken here (walking ▸ rfl) rfl _
  | newer e rest maxId walking here live late =>
    exact inv.passed here (walking ▸ rfl) rfl (inv.at_head here) _
  | fired e rest maxId walking here live old passed =>
    exact ⟨inv.sorted, inv.known, inv.named, by rintro ⟨⟩, fun maxId passing =>
      inv.old maxId (walking ▸ passing)⟩
  | waits e rest maxId walking here live old early =>
    exact inv.passed here (walking ▸ rfl) rfl (inv.at_head here) _
  | again e rest maxId calling here more =>
    have named := inv.at_head here
    apply inv.passed here (congrArg Phase.maxId calling)
    · rfl
    · exact named
  | nomore e rest maxId calling here past =>
    apply inv.passed here (congrArg Phase.maxId calling)
    · rfl
    · exact .inr rfl
  | finalized e maxId calling =>
    exact ⟨inv.sorted, inv.known, inv.named, by rintro ⟨⟩, fun maxId passing =>
      inv.old maxId (calling ▸ passing)⟩
  | finished walking all =>
    exact ⟨inv.sorted, inv.known, inv.named, fun _ => all, by rintro maxId ⟨⟩⟩

/-- There are no more events than ids. -/
theorem Inv.length_le {s : Agenda τ} (inv : s.Inv) : s.listed.length ≤ s.timeEventNextId := by
  have apart : (ids s.listed).Nodup := inv.sorted.imp fun later => later.ne'
  have among : ids s.listed ⊆ List.range s.timeEventNextId :=
    fun id member => List.mem_range.mpr (inv.known id member)
  have bound := (apart.subperm among).length_le
  rwa [ids, List.length_map, List.length_range] at bound

/-- Only one event has the id, unless it is the one of all that have ended. -/
theorem Inv.endIf_other {s : Agenda τ} {e other : Event τ} {first second : List (Event τ)}
    (inv : s.Inv) (all : s.listed = first ++ e :: second) (member : other ∈ second) :
    other.endIf e.id = other ∧ other.endings e.id = [] := by
  rw [Event.endIf, Event.endings]
  split
  case isFalse => exact ⟨rfl, rfl⟩
  case isTrue same =>
    obtain named | past := inv.named other
      (all ▸ List.mem_append_right _ (List.mem_cons_of_mem _ member))
    · -- it was created before the event and has another id
      have sorted := inv.sorted
      rw [all, ids_append] at sorted
      have older : e.born > other.born :=
        (List.pairwise_cons.mp (List.pairwise_append.mp sorted).2.1).1 other.born
          (List.mem_map.mpr ⟨other, member, rfl⟩)
      obtain mine | past := inv.named e (all ▸ List.mem_append_right _ List.mem_cons_self)
      · omega
      · rw [← same, named, AE_DELETED_EVENT_ID] at past
        omega
    · constructor
      · rw [Event.ended, ← past]
      · rw [Event.ending, if_pos past]

end Agenda

/-! ## The chain refines the agenda -/

/-- Control is at the same place. -/
inductive Placed : Stage α → Phase τ → List (α × Event τ) → List (α × Event τ) → Prop
  | idle : Placed .idle .idle [] []
  | walking (ahead : List (α × Event τ)) (maxId : Int) :
    Placed (.walking (entrance ahead none) maxId) (.walking maxId) ahead []
  | inTimeProc (te : α) (e : Event τ) (rest : List (α × Event τ)) (maxId : Int) :
    Placed (.inTimeProc te maxId) (.inTimeProc maxId) ((te, e) :: rest) []
  | inFinalizer (te : α) (e : Event τ) (ahead : List (α × Event τ)) (maxId : Int) :
    Placed (.inFinalizer te (entrance ahead none) maxId) (.inFinalizer e maxId) ahead [(te, e)]

/-- The memory is the list of the agenda, and the event being finalized if there is one. -/
inductive Represents : Chain α τ → Agenda τ → Prop
  | intro (holds : Holds heap (seen ++ ahead) loose) (placed : Placed stage phase ahead loose)
      (timeEventNextId : Nat) (lastTime : Int) (log : List Entry) :
    Represents
      ⟨heap, entrance (seen ++ ahead) none, timeEventNextId, lastTime, stage, log⟩
      ⟨seen.map Prod.snd, ahead.map Prod.snd, timeEventNextId, lastTime, phase, log⟩

private theorem Represents.of {c : Chain α τ} {s : Agenda τ} (seen ahead : List (α × Event τ))
    (holds : Holds c.heap (seen ++ ahead) loose) (placed : Placed c.stage s.phase ahead loose)
    (head : c.timeEventHead = entrance (seen ++ ahead) none)
    (behind : s.seen = seen.map Prod.snd) (coming : s.ahead = ahead.map Prod.snd)
    (count : c.timeEventNextId = s.timeEventNextId) (last : c.lastTime = s.lastTime)
    (log : c.log = s.log) : Represents c s := by
  obtain ⟨heap, timeEventHead, timeEventNextId, lastTime, stage, entries⟩ := c
  obtain ⟨was, comes, nextId, time, phase, events⟩ := s
  cases head
  cases behind
  cases coming
  cases count
  cases last
  cases log
  exact .intro holds placed _ _ _

theorem Represents.log_eq {c : Chain α τ} {s : Agenda τ} (represents : Represents c s) :
    c.log = s.log := by
  cases represents
  rfl

theorem Represents.count_eq {c : Chain α τ} {s : Agenda τ} (represents : Represents c s) :
    c.timeEventNextId = s.timeEventNextId := by
  cases represents
  rfl

theorem Represents.lastTime_eq {c : Chain α τ} {s : Agenda τ} (represents : Represents c s) :
    c.lastTime = s.lastTime := by
  cases represents
  rfl

theorem Represents.idle {c : Chain α τ} {s : Agenda τ} (represents : Represents c s)
    (idle : c.stage = .idle) : s.phase = .idle := by
  cases represents with
  | intro holds placed timeEventNextId lastTime log =>
    cases placed with
    | idle => rfl
    | walking | inTimeProc | inFinalizer => cases idle

theorem start_represents (now : Int) :
    Represents (Chain.start now : Chain α τ) (Agenda.start now) := by
  apply Represents.of [] []
  · exact holds_nothing
  · exact .idle
  all_goals rfl

/-- Where the loop itself cannot make the move, a callback or the program makes it. -/
theorem Placed.calls {stage : Stage α} {phase : Phase τ} {ahead loose : List (α × Event τ)}
    {move : Move α τ} (placed : Placed stage phase ahead loose)
    (takes : Chain.takes stage move = true)
    (never : ∀ te maxId, Chain.takes (.walking te maxId) move = false) (maxId : Int) :
    phase ≠ .walking maxId := by
  cases placed with
  | idle => rintro ⟨⟩
  | walking ahead maxId =>
    rw [never] at takes
    cases takes
  | inTimeProc te e rest maxId => rintro ⟨⟩
  | inFinalizer te e ahead maxId => rintro ⟨⟩

private theorem Placed.map {stage : Stage α} {phase : Phase τ} {ahead loose : List (α × Event τ)}
    (placed : Placed stage phase ahead loose) (f : Event τ → Event τ) :
    Placed stage phase (ahead.map (Prod.map id f)) loose := by
  cases placed with
  | idle => exact .idle
  | walking ahead maxId =>
    rw [← entrance_map ahead f]
    exact .walking _ _
  | inTimeProc te e rest maxId => exact .inTimeProc _ _ _ _
  | inFinalizer te e ahead maxId =>
    rw [← entrance_map ahead f]
    exact .inFinalizer _ _ _ _

private theorem map_snd_map (f : Event τ → Event τ) (nodes : List (α × Event τ)) :
    (nodes.map Prod.snd).map f = (nodes.map (Prod.map id f)).map Prod.snd := by
  rw [List.map_map, List.map_map]
  rfl

private theorem Event.endIf_ne {named : Int} {e : Event τ} (other : e.id ≠ named) :
    e.endIf named = e ∧ e.endings named = [] :=
  ⟨if_neg other, if_neg other⟩

/-- Where no event has the id, none ends. -/
theorem endIf_none {named : Int} {nodes : List (α × Event τ)}
    (none : ∀ node ∈ nodes, node.2.endIf named = node.2 ∧ node.2.endings named = []) :
    nodes.map (Prod.map id (Event.endIf named)) = nodes ∧
      (nodes.map Prod.snd).flatMap (Event.endings named) = [] := by
  constructor
  · conv_rhs => rw [← List.map_id nodes]
    apply List.map_congr_left
    intro node member
    exact Prod.ext rfl (none node member).1
  · rw [List.flatMap_eq_nil_iff]
    intro e member
    obtain ⟨node, listed, rfl⟩ := List.mem_map.mp member
    exact (none node listed).2

section
variable [DecidableEq α] {c : Chain α τ} {s : Agenda τ}

/-- The chain can make the move, touches only its own memory, and does to it what the agenda
does. -/
def Refined (c : Chain α τ) (s : Agenda τ) (move : Move α τ) : Prop :=
  ∃ after later, c.exec move = some after ∧ s.Step move later ∧ Represents after later

private theorem create_refines (represents : Represents c s)
    (enabled : c.Enabled (.create address milliseconds clientData finalizerProc now)) :
    Refined c s (.create address milliseconds clientData finalizerProc now) := by
  obtain ⟨takes, unused⟩ := enabled
  cases represents with
  | @intro heap seen ahead loose stage phase holds placed timeEventNextId lastTime log =>
    have calls := placed.calls takes fun _ _ => rfl
    cases address with
    | none => exact ⟨_, _, rfl, .refused calls, .intro holds placed _ _ _⟩
    | some te =>
      obtain ⟨heap, pushed, grown⟩ := holds.pushFront (Option.isNone_iff_eq_none.mp unused)
        ⟨timeEventNextId, aeAddMillisecondsToNow milliseconds now, finalizerProc, clientData,
          timeEventNextId⟩
      refine ⟨⟨heap, some te, timeEventNextId + 1, lastTime, stage,
        log ++ [.created timeEventNextId finalizerProc]⟩, _, ?_, .created calls,
        .of ((te, _) :: seen) ahead grown placed rfl rfl rfl rfl rfl rfl⟩
      simp only [Chain.exec, Chain.aeCreateTimeEvent, pushed]
      rfl

/-- `aeDeleteTimeEvent` ends the events of that id. -/
theorem aeDeleteTimeEvent_spec {nodes loose : List (α × Event τ)} (named : Int)
    (holds : Holds c.heap nodes loose) (head : c.timeEventHead = entrance nodes none)
    (enough : nodes.length ≤ c.timeEventNextId)
    (others : ∀ first te e second, nodes = first ++ (te, e) :: second →
      ∀ other ∈ second, other.2.endIf e.id = other.2 ∧ other.2.endings e.id = []) :
    ∃ heap result, c.aeDeleteTimeEvent named = some
        (({ c with heap } : Chain α τ).note ((nodes.map Prod.snd).flatMap (Event.endings named)),
          result) ∧
      Holds heap (nodes.map (Prod.map id (Event.endIf named))) loose ∧
      (result = AE_OK ↔ ∃ e ∈ nodes.map Prod.snd, e.id = named) := by
  have searched := search_spec holds.linked (fun e => decide (e.id = named))
    (Nat.lt_succ_of_le enough)
  rw [← head] at searched
  rw [Chain.aeDeleteTimeEvent, searched]
  cases result : nodes.find? fun node => decide (node.2.id = named) with
  | none =>
    have absent : ∀ node ∈ nodes, node.2.id ≠ named := fun node member =>
      of_decide_eq_false (Bool.eq_false_iff.mpr (List.find?_eq_none.mp result node member))
    obtain ⟨same, quiet⟩ := endIf_none fun node member => Event.endIf_ne (absent node member)
    refine ⟨c.heap, AE_ERR, ?_, by rwa [same], iff_of_false (by decide) ?_⟩
    · simp only [quiet, Chain.note, List.append_nil]
      rfl
    · rintro ⟨e, member, here⟩
      obtain ⟨node, listed, rfl⟩ := List.mem_map.mp member
      exact absent node listed here
  | some node =>
    obtain ⟨te, e⟩ := node
    obtain ⟨same, first, second, rfl, before⟩ := List.find?_eq_some_iff_append.mp result
    obtain rfl : e.id = named := of_decide_eq_true same
    obtain ⟨heap, wrote, marked⟩ := holds.setValue Event.ended
    obtain ⟨keptFirst, quietFirst⟩ := endIf_none fun node member =>
      Event.endIf_ne (of_decide_eq_false (by simpa using before node member))
    obtain ⟨keptSecond, quietSecond⟩ := endIf_none (others first te e second rfl)
    refine ⟨heap, AE_OK, ?_, ?_, iff_of_true rfl ⟨e, by simp, rfl⟩⟩
    · simp only [Option.map_some, Option.bind_eq_bind, Option.bind_some, holds.read, wrote,
        List.map_append, List.map_cons, List.flatMap_append, List.flatMap_cons, quietFirst,
        quietSecond, List.nil_append, List.append_nil, Event.endings, if_true]
    · rw [List.map_append, List.map_cons, keptFirst, keptSecond, Prod.map_apply, Event.endIf,
        if_pos rfl]
      exact marked

private theorem delete_refines (represents : Represents c s) (inv : s.Inv)
    (enabled : c.Enabled (.delete named)) : Refined c s (.delete named) := by
  cases represents with
  | @intro heap seen ahead loose stage phase holds placed timeEventNextId lastTime log =>
    have calls := placed.calls enabled.1 fun _ _ => rfl
    have enough : (seen ++ ahead).length ≤ timeEventNextId := by
      simpa [Agenda.listed] using inv.length_le
    have others : ∀ first te e second, seen ++ ahead = first ++ (te, e) :: second →
        ∀ other ∈ second, other.2.endIf e.id = other.2 ∧ other.2.endings e.id = [] := by
      intro first te e second all other member
      have listed : seen.map Prod.snd ++ ahead.map Prod.snd =
          first.map Prod.snd ++ e :: second.map Prod.snd := by
        simpa using congrArg (List.map Prod.snd) all
      exact inv.endIf_other listed (List.mem_map_of_mem member)
    obtain ⟨after, result, ran, ended, -⟩ := aeDeleteTimeEvent_spec named
      (c := ⟨heap, entrance (seen ++ ahead) none, timeEventNextId, lastTime, stage, log⟩)
      holds rfl enough others
    rw [List.map_append] at ended
    refine ⟨_, _, congrArg (Option.map Prod.fst) ran, .deleted calls,
      .of _ _ ended (placed.map _) ?_ (map_snd_map _ _) (map_snd_map _ _) rfl rfl ?_⟩
    · rw [← List.map_append, entrance_map]
      rfl
    · simp only [Chain.note, Agenda.listed, List.map_append]

private theorem enter_refines (represents : Represents c s) (inv : s.Inv)
    (enabled : c.Enabled (.enter now)) : Refined c s (.enter now) := by
  cases represents with
  | @intro heap seen ahead loose stage phase holds placed timeEventNextId lastTime log =>
    obtain ⟨takes, -⟩ := enabled
    cases placed with
    | walking | inTimeProc | inFinalizer => cases takes
    | idle =>
      have enough : seen.length < timeEventNextId + 1 := by
        simpa [Agenda.listed] using Nat.lt_succ_of_le inv.length_le
      have holds : Holds heap ([] ++ seen) [] := List.append_nil seen ▸ holds
      by_cases back : now < lastTime
      · obtain ⟨later, walked, all⟩ := holds.setAll Event.rewound enough
        refine ⟨⟨later, entrance seen none, timeEventNextId, now,
          .walking (entrance seen none) (timeEventNextId - 1), log⟩, _, ?_, .entered rfl,
          .of [] (seen.map (Prod.map id Event.rewound)) all ?_ (entrance_map _ _).symm rfl ?_
            rfl rfl rfl⟩
        · simp only [Chain.exec, Chain.processTimeEvents, if_pos back, List.append_nil, walked]
          rfl
        · rw [← entrance_map seen Event.rewound]
          exact .walking _ _
        · rw [if_pos back]
          exact map_snd_map _ _
      · refine ⟨⟨heap, entrance seen none, timeEventNextId, now,
          .walking (entrance seen none) (timeEventNextId - 1), log⟩, _, ?_, .entered rfl,
          .of [] seen holds (.walking _ _) rfl rfl ?_ rfl rfl rfl⟩
        · simp only [Chain.exec, Chain.processTimeEvents, if_neg back, List.append_nil]
          rfl
        · exact if_neg back

private theorem visit_refines (represents : Represents c s) (enabled : c.Enabled (.visit now)) :
    Refined c s (.visit now) := by
  cases represents with
  | @intro heap seen ahead loose stage phase holds placed timeEventNextId lastTime log =>
    obtain ⟨takes, -⟩ := enabled
    cases placed with
    | idle | inTimeProc | inFinalizer => cases takes
    | walking ahead maxId =>
      obtain ⟨te, here⟩ := Option.isSome_iff_exists.mp takes
      obtain ⟨e, rest, rfl⟩ := entrance_eq_some here
      have read := holds.read
      have pass : Holds heap ((seen ++ [(te, e)]) ++ rest) [] := List.append_cons .. ▸ holds
      have head : entrance (seen ++ (te, e) :: rest) none =
          entrance ((seen ++ [(te, e)]) ++ rest) none := by rw [← List.append_cons]
      by_cases past : e.id = AE_DELETED_EVENT_ID
      · obtain ⟨mid, unlinked, -, left⟩ := holds.unlink
        cases finalizer : e.finalizerProc with
        | false =>
          obtain ⟨later, freed, kept⟩ := left.free
          refine ⟨⟨later, entrance (seen ++ rest) none, timeEventNextId, lastTime,
            .walking (entrance rest none) maxId, log ++ [.freed e.born]⟩, _, ?_,
            .collected _ _ _ rfl rfl past finalizer,
            .of seen rest kept (.walking rest maxId) rfl rfl rfl rfl rfl rfl⟩
          change Chain.visit _ te maxId now = _
          simp only [Chain.visit, read, Option.bind_eq_bind, Option.bind_some, if_pos past,
            unlinked, finalizer, freed]
          rfl
        | true =>
          refine ⟨⟨mid, entrance (seen ++ rest) none, timeEventNextId, lastTime,
            .inFinalizer te (entrance rest none) maxId, log ++ [.finalizerProc e.born]⟩, _, ?_,
            .unlinked _ _ _ rfl rfl past finalizer,
            .of seen rest left (.inFinalizer te e rest maxId) rfl rfl rfl rfl rfl rfl⟩
          change Chain.visit _ te maxId now = _
          simp only [Chain.visit, read, Option.bind_eq_bind, Option.bind_some, if_pos past,
            unlinked, finalizer]
          rfl
      · by_cases late : e.id > maxId
        · refine ⟨⟨heap, entrance (seen ++ (te, e) :: rest) none, timeEventNextId, lastTime,
            .walking (entrance rest none) maxId, log⟩, _, ?_, .newer _ _ _ rfl rfl past late,
            .of _ rest pass (.walking rest maxId) head (by simp) rfl rfl rfl rfl⟩
          change Chain.visit _ te maxId now = _
          simp only [Chain.visit, read, Option.bind_eq_bind, Option.bind_some, if_neg past,
            if_pos late]
        · by_cases passed : Passed now e.due
          · refine ⟨⟨heap, entrance (seen ++ (te, e) :: rest) none, timeEventNextId, lastTime,
              .inTimeProc te maxId, log ++ [.timeProc e.born e.id]⟩, _, ?_,
              .fired _ _ _ rfl rfl past (Int.not_lt.mp late) passed,
              .of seen _ holds (.inTimeProc te e rest maxId) rfl rfl rfl rfl rfl rfl⟩
            change Chain.visit _ te maxId now = _
            simp only [Chain.visit, read, Option.bind_eq_bind, Option.bind_some, if_neg past,
              if_neg late, if_pos passed]
            rfl
          · refine ⟨⟨heap, entrance (seen ++ (te, e) :: rest) none, timeEventNextId, lastTime,
              .walking (entrance rest none) maxId, log ++ [.early e.born now]⟩, _, ?_,
              .waits _ _ _ rfl rfl past (Int.not_lt.mp late) passed,
              .of _ rest pass (.walking rest maxId) head (by simp) rfl rfl rfl rfl⟩
            change Chain.visit _ te maxId now = _
            simp only [Chain.visit, read, Option.bind_eq_bind, Option.bind_some, if_neg past,
              if_neg late, if_neg passed]
            rfl

private theorem returned_refines (represents : Represents c s)
    (enabled : c.Enabled (.returned retval now)) : Refined c s (.returned retval now) := by
  cases represents with
  | @intro heap seen ahead loose stage phase holds placed timeEventNextId lastTime log =>
    obtain ⟨takes, -⟩ := enabled
    cases placed with
    | idle | walking | inFinalizer => cases takes
    | inTimeProc te e rest maxId =>
      have pass : ∀ later left, Holds later (seen ++ (te, left) :: rest) [] →
          Holds later ((seen ++ [(te, left)]) ++ rest) [] :=
        fun later left held => List.append_cons seen (te, left) rest ▸ held
      have head : ∀ left : Event τ, entrance (seen ++ (te, e) :: rest) none =
          entrance ((seen ++ [(te, left)]) ++ rest) none := by
        intro left
        rw [← List.append_cons, entrance_append, entrance_append]
        rfl
      by_cases more : retval = AE_NOMORE
      · obtain ⟨later, wrote, held⟩ := holds.setValue Event.ended
        refine ⟨⟨later, entrance (seen ++ (te, e) :: rest) none, timeEventNextId, lastTime,
          .walking (entrance rest none) maxId, log ++ e.ending⟩, _, ?_, .nomore _ _ _ rfl rfl more,
          .of _ rest (pass _ _ held) (.walking rest maxId) (head _) (by simp) rfl rfl rfl rfl⟩
        simp only [Chain.exec, Chain.returned, holds.read, Option.bind_eq_bind, Option.bind_some,
          more, ne_eq, not_true, if_false, wrote, held.read]
        rfl
      · obtain ⟨later, wrote, held⟩ := holds.setValue fun e =>
          { e with due := aeAddMillisecondsToNow retval now }
        refine ⟨⟨later, entrance (seen ++ (te, e) :: rest) none, timeEventNextId, lastTime,
          .walking (entrance rest none) maxId, log⟩, _, ?_, .again _ _ _ rfl rfl more,
          .of _ rest (pass _ _ held) (.walking rest maxId) (head _) (by simp) rfl rfl rfl rfl⟩
        simp only [Chain.exec, Chain.returned, holds.read, Option.bind_eq_bind, Option.bind_some,
          more, ne_eq, not_false_eq_true, if_true, wrote, held.read]

private theorem finalized_refines (represents : Represents c s) (enabled : c.Enabled .finalized) :
    Refined c s .finalized := by
  cases represents with
  | @intro heap seen ahead loose stage phase holds placed timeEventNextId lastTime log =>
    obtain ⟨takes, -⟩ := enabled
    cases placed with
    | idle | walking | inTimeProc => cases takes
    | inFinalizer te e ahead maxId =>
      obtain ⟨cell, read, rfl⟩ := holds.read_loose
      obtain ⟨later, freed, kept⟩ := holds.free
      refine ⟨⟨later, entrance (seen ++ ahead) none, timeEventNextId, lastTime,
        .walking (entrance ahead none) maxId, log ++ [.freed cell.value.born]⟩, _, ?_,
        .finalized _ _ rfl, .of seen ahead kept (.walking ahead maxId) rfl rfl rfl rfl rfl rfl⟩
      simp only [Chain.exec, Chain.finalized, read, freed, Option.bind_eq_bind, Option.bind_some]
      rfl

private theorem finish_refines (represents : Represents c s) (enabled : c.Enabled .finish) :
    Refined c s .finish := by
  cases represents with
  | @intro heap seen ahead loose stage phase holds placed timeEventNextId lastTime log =>
    obtain ⟨takes, -⟩ := enabled
    cases placed with
    | idle | inTimeProc | inFinalizer => cases takes
    | walking ahead maxId =>
      obtain rfl := entrance_eq_none.mp (Option.isNone_iff_eq_none.mp takes)
      exact ⟨_, _, rfl, .finished rfl rfl, .of seen [] holds .idle rfl rfl rfl rfl rfl rfl⟩

/-- Whatever can happen next does to the chain what it does to the agenda. -/
theorem chain_refines (represents : Represents c s) (inv : s.Inv) (move : Move α τ)
    (enabled : c.Enabled move) : Refined c s move := by
  cases move with
  | create => exact create_refines represents enabled
  | delete => exact delete_refines represents inv enabled
  | enter => exact enter_refines represents inv enabled
  | visit => exact visit_refines represents enabled
  | returned => exact returned_refines represents enabled
  | finalized => exact finalized_refines represents enabled
  | finish => exact finish_refines represents enabled

private theorem chain_follows (represents : Represents c s) (inv : s.Inv)
    (along : Along Chain.step Chain.Enabled c moves) :
    ∃ after later, run Chain.step c moves = some after ∧ Agenda.Steps s moves later ∧
      Represents after later := by
  induction moves generalizing c s with
  | nil => exact ⟨c, s, rfl, .nil, represents⟩
  | cons move rest ih =>
    obtain ⟨enabled, onward⟩ := along_cons.mp along
    obtain ⟨mid, next, ran, took, matched⟩ := chain_refines represents inv move enabled
    have made : c.step move = some mid := (if_pos enabled).trans ran
    obtain ⟨after, later, reached, followed, kept⟩ :=
      ih matched (inv.step took) (onward mid made)
    exact ⟨after, later, run_cons.mpr ⟨mid, made, reached⟩, .cons took followed, kept⟩

/-- Whatever events are created and deleted, outside of a pass, in callbacks and in finalizers:
as long as `zmalloc` returns unused memory, `processTimeEvents` and the functions it shares the
list with reach only memory that is allocated, their walks end, and the list they leave is the
one of the agenda. Nothing is allocated but the events listed and the one being finalized. -/
theorem chain_simulates_agenda {moves : List (Move α τ)}
    (along : Along Chain.step Chain.Enabled (Chain.start now) moves) :
    ∃ c s, run Chain.step (Chain.start now) moves = some c ∧
      Agenda.Steps (Agenda.start now) moves s ∧ Represents c s :=
  chain_follows (start_represents now) (Agenda.start_inv now) along

/-- Events 0, 1 and 3 are created, event 2 gets no memory and event 0 is deleted. The pass finds
event 3 not due yet. The callback of event 1 then creates event 4 and deletes event 3, and
returns `AE_NOMORE`. The finalizer of event 0 creates event 5. -/
def busyMoves : List (Move Nat Unit) :=
  [.create (some 7) 0 () true ⟨0, 0⟩, .create (some 3) 0 () false ⟨0, 0⟩,
    .create none 0 () false ⟨0, 0⟩, .create (some 5) 5000 () false ⟨0, 0⟩, .delete 0,
    .enter 1, .visit ⟨1, 0⟩, .visit ⟨1, 0⟩, .create (some 9) 0 () false ⟨1, 0⟩, .delete 3,
    .returned (-1) ⟨1, 0⟩, .visit ⟨1, 0⟩, .create (some 2) 0 () false ⟨1, 0⟩, .finalized, .finish]

theorem busyMoves_simulated :
    Along Chain.step Chain.Enabled (Chain.start 0) busyMoves ∧
      ∃ c s, run Chain.step (Chain.start 0) busyMoves = some c ∧
        Agenda.Steps (Agenda.start 0) busyMoves s ∧ Represents c s := by
  have along : Along Chain.step Chain.Enabled (Chain.start 0) busyMoves := by decide +kernel
  exact ⟨along, chain_simulates_agenda along⟩

private theorem step_refines (represents : Represents c s) (inv : s.Inv)
    (made : c.step move = some after) :
    ∃ later, s.Step move later ∧ Represents after later := by
  rw [Chain.step] at made
  split at made
  case isFalse => cases made
  case isTrue enabled =>
    obtain ⟨other, later, ran, took, matched⟩ := chain_refines represents inv move enabled
    cases made.symm.trans ran
    exact ⟨later, took, matched⟩

theorem run_refines (represents : Represents c s) (inv : s.Inv)
    (ran : run Chain.step c moves = some after) :
    ∃ later, Agenda.Steps s moves later ∧ Represents after later ∧ later.Inv := by
  induction moves generalizing c s with
  | nil =>
    cases ran
    exact ⟨s, .nil, represents, inv⟩
  | cons move rest ih =>
    obtain ⟨mid, made, onward⟩ := run_cons.mp ran
    obtain ⟨next, took, matched⟩ := step_refines represents inv made
    obtain ⟨later, followed, kept⟩ := ih matched (inv.step took) onward
    exact ⟨later, .cons took followed, kept⟩

theorem reached_represents (ran : run Chain.step (Chain.start now) moves = some c) :
    ∃ s, Agenda.Steps (Agenda.start now) moves s ∧ Represents c s ∧ s.Inv :=
  run_refines (start_represents now) (Agenda.start_inv now) ran

/-- The check `te->id > maxId` is "for future defense": an event created during a pass is in
front of all those the pass still has to visit, so none that it comes to is newer than the
pass. -/
theorem newer_events_never_met {te : α} {maxId : Int}
    (ran : run Chain.step (Chain.start now) moves = some c)
    (walking : c.stage = .walking (some te) maxId) :
    ∃ cell, c.heap te = some cell ∧ cell.value.id ≤ maxId := by
  obtain ⟨s, -, represents, inv⟩ := reached_represents ran
  cases represents with
  | intro holds placed timeEventNextId lastTime log =>
    cases placed with
    | idle | inTimeProc | inFinalizer => cases walking
    | walking ahead maxId =>
      obtain ⟨here, rfl⟩ := Stage.walking.inj walking
      obtain ⟨e, rest, rfl⟩ := entrance_eq_some here
      refine ⟨_, holds.read, ?_⟩
      have old := inv.old maxId rfl e.born List.mem_cons_self
      obtain named | past := inv.at_head rfl
      · exact named.trans_le old
      · rw [past, AE_DELETED_EVENT_ID]
        omega

theorem newer_events_never_met_midway :
    ∃ c, run Chain.step (Chain.start 0) (busyMoves.take 11) = some c ∧
      c.stage = .walking (some 7) 3 ∧ ∃ cell, c.heap 7 = some cell ∧ cell.value.id ≤ 3 := by
  have stopped : (run Chain.step (Chain.start 0) (busyMoves.take 11)).any
      (fun c => decide (c.stage = .walking (some 7) 3)) = true := by decide +kernel
  obtain ⟨c, ran, walking⟩ := (Option.any_eq_true _ _).mp stopped
  exact ⟨c, ran, of_decide_eq_true walking,
    newer_events_never_met ran (of_decide_eq_true walking)⟩

end

end TcpCongestion.TimerChain
