import Mathlib.Data.List.Forall2
import TcpCongestion.TimerLives

/-! One pass of `processTimeEvents`, whatever its callbacks and finalizers create and delete on
the way: each event that was there at its beginning is called once if it is due, or is collected
if it has ended by the time the pass comes to it. -/
namespace TcpCongestion.TimerChain
open Runs LinkedCells TimeEvents

variable {α τ : Type}

/-- The callbacks made, by the ids they got. -/
def timeProcs (log : List Entry) : List Int :=
  log.filterMap fun
    | .timeProc _ id => some id
    | _ => none

private theorem timeProcs_append (first second : List Entry) :
    timeProcs (first ++ second) = timeProcs first ++ timeProcs second :=
  List.filterMap_append

/-- The event was taken out of the list. -/
def Collected (e : Event τ) (news : List Entry) : Prop :=
  (if e.finalizerProc then Entry.finalizerProc e.born else .freed e.born) ∈ news

/-- What a pass can do about an event that is there when it begins: call it, find at its turn
that it is not due yet, or collect it. One that had ended before is collected. -/
def Served (e : Event τ) (moves : List (Move α τ)) (news : List Entry) : Prop :=
  (e.id ≠ AE_DELETED_EVENT_ID ∧
    (.timeProc e.born e.id ∈ news ∨
      ∃ now, .early e.born now ∈ news ∧ .visit now ∈ moves ∧ ¬ Passed now e.due)) ∨
  Collected e news

private theorem Collected.more {e : Event τ} {news : List Entry} (collected : Collected e news)
    (later : List Entry) : Collected e (news ++ later) :=
  List.mem_append_left _ collected

private theorem Served.more {e : Event τ} {moves : List (Move α τ)} {news : List Entry}
    (served : Served e moves news) (move : Move α τ) (later : List Entry) :
    Served e (moves ++ [move]) (news ++ later) := by
  obtain ⟨live, called | ⟨now, turn, visited, early⟩⟩ | collected := served
  · exact .inl ⟨live, .inl (List.mem_append_left _ called)⟩
  · exact .inl ⟨live, .inr ⟨now, List.mem_append_left _ turn, List.mem_append_left _ visited,
      early⟩⟩
  · exact .inr (collected.more later)

/-- An event that the pass has not come to is as it was, unless it has ended. -/
structure Same (was e : Event τ) : Prop where
  born : e.born = was.born
  due : e.due = was.due
  last : e.finalizerProc = was.finalizerProc
  id : e.id = was.id ∨ e.id = AE_DELETED_EVENT_ID

private theorem Same.endIf {was e : Event τ} (same : Same was e) (named : Int) :
    Same was (e.endIf named) := by
  rw [Event.endIf]
  split
  · exact ⟨same.born, same.due, same.last, .inr rfl⟩
  · exact same

namespace Agenda

/-- The events the pass will come to. The one whose callback runs is not among them. -/
def coming (s : Agenda τ) : List (Event τ) :=
  match s.phase with
  | .inTimeProc _ => s.ahead.tail
  | _ => s.ahead

/-- A pass on its way: `base` are the events at its beginning. -/
structure Pass (base : List (Event τ)) (log : List Entry) (moves : List (Move α τ))
    (s : Agenda τ) (news : List Entry) (passed todo : List (Event τ)) : Prop where
  log : s.log = log ++ news
  base : base = passed ++ todo
  coming : List.Forall₂ Same todo s.coming
  called : (timeProcs news).Sublist (passed.map fun e => (e.born : Int))
  served : ∀ e ∈ passed, Served e moves news

section
variable {base passed todo : List (Event τ)} {log news : List Entry} {moves : List (Move α τ)}
  {s next : Agenda τ}

/-- The pass stays where it is. -/
theorem Pass.stays (pass : Pass base log moves s news passed todo) (move : Move α τ)
    (noted : next.log = s.log ++ later) (quiet : timeProcs later = [])
    (coming : List.Forall₂ Same todo next.coming) :
    Pass base log (moves ++ [move]) next (news ++ later) passed todo where
  log := by rw [noted, pass.log, List.append_assoc]
  base := pass.base
  coming := coming
  called := by
    rw [timeProcs_append, quiet, List.append_nil]
    exact pass.called
  served e member := (pass.served e member).more move later

/-- The pass comes to the next event. -/
theorem Pass.comes {was : Event τ} (pass : Pass base log moves s news passed (was :: todo))
    (move : Move α τ) (noted : next.log = s.log ++ later)
    (calls : (timeProcs later).Sublist [(was.born : Int)])
    (coming : List.Forall₂ Same todo next.coming)
    (served : Served was (moves ++ [move]) (news ++ later)) :
    Pass base log (moves ++ [move]) next (news ++ later) (passed ++ [was]) todo where
  log := by rw [noted, pass.log, List.append_assoc]
  base := by rw [pass.base, List.append_cons]
  coming := coming
  called := by
    rw [timeProcs_append, List.map_append]
    exact pass.called.append calls
  served e member := by
    obtain before | here := List.mem_append.mp member
    · exact (pass.served e before).more move later
    · rw [List.mem_singleton.mp here]
      exact served

private theorem timeProcs_ending (e : Event τ) : timeProcs e.ending = [] := by
  rw [Event.ending]
  split <;> rfl

private theorem timeProcs_endings (named : Int) (events : List (Event τ)) :
    timeProcs (events.flatMap (Event.endings named)) = [] := by
  induction events with
  | nil => rfl
  | cons e rest ih =>
    rw [List.flatMap_cons, timeProcs_append, ih, List.append_nil, Event.endings]
    split
    · exact timeProcs_ending e
    · rfl

/-- The event the pass is at. -/
theorem Pass.at_head (pass : Pass base log moves s news passed todo)
    (walking : s.phase = .walking maxId) (here : s.ahead = e :: rest) :
    ∃ was left, todo = was :: left ∧ Same was e ∧ List.Forall₂ Same left rest := by
  have coming := pass.coming
  rw [Agenda.coming, walking, here] at coming
  cases coming with
  | cons same onward => exact ⟨_, _, rfl, same, onward⟩

private theorem Pass.deleted (pass : Pass base log moves s news passed todo) (named : Int)
    (entries : List Entry) :
    List.Forall₂ Same todo (Agenda.coming
      { s with
        seen := s.seen.map (Event.endIf named), ahead := s.ahead.map (Event.endIf named)
        log := entries }) := by
  have mapped : Agenda.coming
      { s with
        seen := s.seen.map (Event.endIf named), ahead := s.ahead.map (Event.endIf named)
        log := entries } = s.coming.map (Event.endIf named) := by
    simp only [Agenda.coming]
    split
    · exact List.map_tail.symm
    · rfl
  rw [mapped, List.forall₂_map_right_iff]
  exact pass.coming.imp fun _ _ same => same.endIf named

private theorem Pass.step (inv : s.Inv) (pass : Pass base log moves s news passed todo)
    (took : s.Step move next) (once : ∀ now, move ≠ .enter now) :
    ∃ later passed todo, Pass base log (moves ++ [move]) next (news ++ later) passed todo := by
  cases took with
  | refused calls =>
    exact ⟨[], passed, todo, pass.stays _ (List.append_nil _).symm rfl pass.coming⟩
  | created calls => exact ⟨_, passed, todo, pass.stays _ rfl rfl pass.coming⟩
  | deleted calls =>
    exact ⟨_, passed, todo, pass.stays _ rfl (timeProcs_endings _ _) (pass.deleted _ _)⟩
  | entered idle => exact (once _ rfl).elim
  | collected e rest maxId walking here past plain =>
    obtain ⟨was, left, rfl, same, onward⟩ := pass.at_head walking here
    refine ⟨_, _, left, pass.comes _ rfl (List.nil_sublist _) onward (.inr ?_)⟩
    rw [Collected, ← same.last, plain, ← same.born]
    exact List.mem_append_right _ (List.mem_singleton_self _)
  | unlinked e rest maxId walking here past last =>
    obtain ⟨was, left, rfl, same, onward⟩ := pass.at_head walking here
    refine ⟨_, _, left, pass.comes _ rfl (List.nil_sublist _) onward (.inr ?_)⟩
    rw [Collected, ← same.last, last, ← same.born]
    exact List.mem_append_right _ (List.mem_singleton_self _)
  | newer e rest maxId walking here live late =>
    -- the events ahead were there when the pass began
    have old := inv.old maxId (walking ▸ rfl) e.born (here ▸ List.mem_cons_self)
    have named := (inv.at_head here).resolve_right live
    omega
  | fired e rest maxId walking here live old passed =>
    obtain ⟨was, left, rfl, same, onward⟩ := pass.at_head walking here
    have named := (inv.at_head here).resolve_right live
    have still := same.id.resolve_right live
    refine ⟨_, _, left, pass.comes _ rfl ?_ (here ▸ onward) (.inl ⟨still ▸ live, .inl ?_⟩)⟩
    · rw [← same.born, ← named]
      exact List.Sublist.refl _
    · rw [← still, ← same.born]
      exact List.mem_append_right _ (List.mem_singleton_self _)
  | waits e rest maxId walking here live old early =>
    obtain ⟨was, left, rfl, same, onward⟩ := pass.at_head walking here
    have still := same.id.resolve_right live
    refine ⟨_, _, left, pass.comes _ rfl (List.nil_sublist _) onward
      (.inl ⟨still ▸ live, .inr ⟨_, ?_, ?_, same.due ▸ early⟩⟩)⟩
    · rw [← same.born]
      exact List.mem_append_right _ (List.mem_singleton_self _)
    · exact List.mem_append_right _ (List.mem_singleton_self _)
  | again e rest maxId calling here more =>
    have coming := pass.coming
    rw [Agenda.coming, calling, here] at coming
    exact ⟨[], passed, todo, pass.stays _ (List.append_nil _).symm rfl coming⟩
  | nomore e rest maxId calling here past =>
    have coming := pass.coming
    rw [Agenda.coming, calling, here] at coming
    exact ⟨_, passed, todo, pass.stays _ rfl (timeProcs_ending e) coming⟩
  | finalized e maxId calling =>
    have coming := pass.coming
    rw [Agenda.coming, calling] at coming
    exact ⟨_, passed, todo, pass.stays _ rfl rfl coming⟩
  | finished walking all =>
    have coming := pass.coming
    rw [Agenda.coming, walking] at coming
    exact ⟨[], passed, todo, pass.stays _ (List.append_nil _).symm rfl coming⟩

end

/-- The pass goes on for as long as it is not begun again. -/
theorem Pass.steps {base : List (Event τ)} {log : List Entry} {done moves : List (Move α τ)}
    {s last : Agenda τ} (inv : s.Inv) (took : Steps s moves last)
    (once : ∀ now, .enter now ∉ moves)
    (pass : ∃ news passed todo, Pass base log done s news passed todo) :
    last.Inv ∧ ∃ news passed todo, Pass base log (done ++ moves) last news passed todo := by
  induction took generalizing done with
  | nil =>
    rw [List.append_nil]
    exact ⟨inv, pass⟩
  | @cons s move mid moves last took onward ih =>
    obtain ⟨news, passed, todo, pass⟩ := pass
    obtain ⟨later, passed, todo, pass⟩ :=
      pass.step inv took fun now same => once now (same ▸ List.mem_cons_self)
    rw [List.append_cons]
    exact ih (inv.step took) (fun now member => once now (List.mem_cons_of_mem _ member))
      ⟨_, passed, todo, pass⟩

/-- The events a pass begins with, given the time on the wall clock. -/
def atEntry (s : Agenda τ) (now : Int) : List (Event τ) :=
  s.seen.map fun e => if now < s.lastTime then e.rewound else e

private theorem ids_atEntry (s : Agenda τ) (now : Int) : ids (s.atEntry now) = ids s.seen := by
  rw [ids, atEntry, List.map_map]
  apply List.map_congr_left
  intro e _
  simp only [Function.comp]
  split <;> rfl

private theorem pass_begins {s next : Agenda τ} {now : Int}
    (took : s.Step (.enter now : Move α τ) next) : s.phase = .idle ∧
      Pass (s.atEntry now) s.log ([] : List (Move α τ)) next [] [] (s.atEntry now) := by
  have same : s.atEntry now =
      if now < s.lastTime then s.seen.map Event.rewound else s.seen := by
    rw [atEntry]
    split
    · rfl
    · exact List.map_id s.seen
  rw [same]
  cases took with
  | entered idle =>
    refine ⟨idle, (List.append_nil _).symm, rfl, ?_, List.Sublist.refl _, ?_⟩
    · exact List.forall₂_same.mpr fun e _ => ⟨rfl, rfl, rfl, .inl rfl⟩
    · intro e member
      cases member

/-- Once the pass is over it has come to all of them. -/
theorem Pass.ended {base passed todo : List (Event τ)} {log news : List Entry}
    {moves : List (Move α τ)} {s : Agenda τ} (inv : s.Inv)
    (pass : Pass base log moves s news passed todo) (idle : s.phase = .idle) : base = passed := by
  have coming := pass.coming
  rw [Agenda.coming, idle, inv.idle idle] at coming
  rw [pass.base, List.forall₂_nil_right_iff.mp coming, List.append_nil]

/-- The callbacks follow the list. -/
theorem Pass.callbacks {s₀ s : Agenda τ} {news : List Entry} {moves : List (Move α τ)}
    {passed todo : List (Event τ)} {log : List Entry} {now : Int} (inv : s₀.Inv)
    (pass : Pass (s₀.atEntry now) log moves s news passed todo)
    (all : s₀.atEntry now = passed) :
    (timeProcs news).Pairwise (· > ·) ∧
      ∀ id ∈ timeProcs news, id < (s₀.timeEventNextId : Int) := by
  have called := pass.called
  have numbers : passed.map (fun e => (e.born : Int)) = (ids s₀.seen).map (Nat.cast : Nat → Int) := by
    rw [← all, ← ids_atEntry s₀ now, ids, List.map_map]
    rfl
  rw [numbers] at called
  have first : (ids s₀.seen).Sublist (ids s₀.listed) := (List.sublist_append_left _ _).map _
  constructor
  · apply List.Pairwise.sublist called
    rw [List.pairwise_map]
    exact (inv.sorted.sublist first).imp fun later => Int.ofNat_lt.mpr later
  · intro id member
    obtain ⟨number, listed, rfl⟩ := List.mem_map.mp (called.subset member)
    exact Int.ofNat_lt.mpr (inv.known number (first.subset listed))

end Agenda

variable [DecidableEq α]

/-- In one pass of `processTimeEvents` the callbacks are made from the newest event to the
oldest, each at most once and none for an event created during the pass. Of the events that were
there when it began, each is called, was found not due when its turn came, or is collected; one
that had already ended is always collected. If the wall clock was set back, all count as due
since second 0. -/
theorem pass_serves_events {c after : Chain α τ} {middle : List (Move α τ)}
    (ran : run Chain.step (Chain.start time) before = some c)
    (pass : run Chain.step c (.enter now :: middle) = some after)
    (once : ∀ again, .enter again ∉ middle) (past : after.stage = .idle) :
    ∃ news, after.log = c.log ++ news ∧ (timeProcs news).Pairwise (· > ·) ∧
      (∀ id ∈ timeProcs news, id < c.timeEventNextId) ∧
      ∀ te cell, c.heap te = some cell →
        Served (if now < c.lastTime then cell.value.rewound else cell.value) middle news := by
  obtain ⟨s, -, represents, inv⟩ := reached_represents ran
  obtain ⟨later, steps, matched, -⟩ := run_refines represents inv pass
  cases steps with
  | @cons _ _ mid _ _ took onward =>
    obtain ⟨idle, begun⟩ := Agenda.pass_begins took
    obtain ⟨kept, news, passed, todo, went⟩ :=
      Agenda.Pass.steps (inv.step took) onward once ⟨_, _, _, begun⟩
    have all := went.ended kept (matched.idle past)
    obtain ⟨falling, older⟩ := went.callbacks inv all
    refine ⟨news, ?_, falling, represents.count_eq ▸ older, fun te cell there => ?_⟩
    · rw [represents.log_eq, matched.log_eq, went.log]
    · obtain listed | ⟨e, maxId, phase, -⟩ := represents.memory there
      · rw [Agenda.listed, inv.idle idle, List.append_nil] at listed
        rw [represents.lastTime_eq]
        apply went.served
        rw [← all]
        exact List.mem_map.mpr ⟨_, listed, rfl⟩
      · cases idle.symm.trans phase

theorem busyMoves_serves :
    ∃ c after news, run Chain.step (Chain.start 0) (busyMoves.take 5) = some c ∧
      run Chain.step c (.enter 1 :: busyMoves.drop 6) = some after ∧ after.stage = .idle ∧
      after.log = c.log ++ news ∧ (timeProcs news).Pairwise (· > ·) ∧
      (∀ id ∈ timeProcs news, id < c.timeEventNextId) ∧
      ∀ te cell, c.heap te = some cell →
        Served (if 1 < c.lastTime then cell.value.rewound else cell.value)
          (busyMoves.drop 6) news := by
  have ends : (run Chain.step (Chain.start 0) (busyMoves.take 5)).any (fun c =>
      (run Chain.step c (.enter 1 :: busyMoves.drop 6)).any fun after =>
        decide (after.stage = .idle)) = true := by decide +kernel
  obtain ⟨c, ran, onward⟩ := (Option.any_eq_true _ _).mp ends
  obtain ⟨after, pass, idle⟩ := (Option.any_eq_true _ _).mp onward
  have past := of_decide_eq_true idle
  obtain ⟨news, served⟩ := pass_serves_events ran pass (by simp [busyMoves]) past
  exact ⟨c, after, news, ran, pass, past, served⟩

end TcpCongestion.TimerChain
