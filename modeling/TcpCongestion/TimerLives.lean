import TcpCongestion.TimerChain

/-! What becomes of a time event. Its life is read off the log: it is created once, its callback
runs any number of times and never after it has ended, and its memory is freed once, right after
its finalizer if it has one. -/
namespace TcpCongestion.TimerChain
open Runs LinkedCells TimeEvents

variable {α τ : Type}

/-- The event an entry is about. -/
def Entry.born : Entry → Nat
  | .created born _ => born
  | .timeProc born _ => born
  | .early born _ => born
  | .ended born => born
  | .finalizerProc born => born
  | .freed born => born

/-- How far the life of an event has come; until it ends, whether it has a finalizer. -/
inductive Life where
  | unborn
  | live (finalizerProc : Bool)
  | ended (finalizerProc : Bool)
  | finalizing
  | freed
  deriving DecidableEq, Repr

/-- All that can happen to an event, in its order. The callback gets the id the event was born
with. -/
def Life.after : Life → Entry → Option Life
  | .unborn, .created _ finalizerProc => some (.live finalizerProc)
  | .live finalizerProc, .timeProc born id => if id = born then some (.live finalizerProc) else none
  | .live finalizerProc, .early _ _ => some (.live finalizerProc)
  | .live finalizerProc, .ended _ => some (.ended finalizerProc)
  | .ended true, .finalizerProc _ => some .finalizing
  | .ended false, .freed _ => some .freed
  | .finalizing, .freed _ => some .freed
  | _, _ => none

/-- What happened to the event. -/
def about (id : Nat) (log : List Entry) : List Entry :=
  log.filter fun entry => decide (entry.born = id)

/-- The life of the event, if what happened to it makes one. -/
def lifeOf (id : Nat) (log : List Entry) : Option Life := run Life.after .unborn (about id log)

private theorem lifeOf_append {id : Nat} {log : List Entry} (before : lifeOf id log = some life)
    (news : List Entry) : lifeOf id (log ++ news) = run Life.after life (about id news) := by
  rw [lifeOf, about, List.filter_append]
  generalize ended : run Life.after life (about id news) = last
  cases last with
  | some last => exact run_append.mpr ⟨life, before, ended⟩
  | none =>
    rw [Option.eq_none_iff_forall_ne_some]
    intro last ran
    obtain ⟨mid, reached, onward⟩ := run_append.mp ran
    cases before.symm.trans reached
    cases ended.symm.trans onward

/-- What happens to another event. -/
theorem about_one {id : Nat} {entry : Entry} (apart : entry.born ≠ id) : about id [entry] = [] := by
  rw [about, List.filter_singleton, decide_eq_false apart]
  rfl

private theorem about_self {id : Nat} {entry : Entry} (same : entry.born = id) :
    about id [entry] = [entry] := by
  rw [about, List.filter_singleton, decide_eq_true same]
  rfl

/-! ## The events by their ids -/

def find (id : Nat) (events : List (Event τ)) : Option (Event τ) :=
  events.find? fun e => e.born = id

private theorem find_append (id : Nat) (first second : List (Event τ)) :
    find id (first ++ second) = (find id first).or (find id second) :=
  List.find?_append

private theorem find_cons (id : Nat) (e : Event τ) (events : List (Event τ)) :
    find id (e :: events) = if e.born = id then some e else find id events := by
  rw [find, List.find?_cons]
  split
  next same => rw [if_pos (of_decide_eq_true same)]
  next other =>
    rw [if_neg (of_decide_eq_false other)]
    rfl

private theorem find_map (id : Nat) (f : Event τ → Event τ) (same : ∀ e, (f e).born = e.born)
    (events : List (Event τ)) : find id (events.map f) = (find id events).map f := by
  rw [find, List.find?_map]
  simp only [Function.comp_def, same]
  rfl

private theorem find_born {id : Nat} {events : List (Event τ)} (here : find id events = some e) :
    e.born = id :=
  of_decide_eq_true (List.find?_some (p := fun e : Event τ => decide (e.born = id)) here)

private theorem find_eq_none {id : Nat} {events : List (Event τ)} :
    find id events = none ↔ id ∉ Agenda.ids events := by
  simp only [find, List.find?_eq_none, decide_eq_true_eq, Agenda.ids, List.mem_map, not_exists,
    not_and]

/-- In a list with one event of each id, the ones around an event are others. -/
theorem find_middle {e : Event τ} {first second : List (Event τ)}
    (apart : (Agenda.ids (first ++ e :: second)).Nodup) (id : Nat) :
    find id (first ++ e :: second) =
        (if e.born = id then some e else find id (first ++ second)) ∧
      (e.born = id → find id (first ++ second) = none) := by
  rw [Agenda.ids, List.map_append, List.map_cons, List.nodup_middle, List.nodup_cons,
    ← List.map_append] at apart
  have absent : e.born = id → find id (first ++ second) = none := by
    rintro rfl
    exact find_eq_none.mpr apart.1
  refine ⟨?_, absent⟩
  split
  case isTrue same =>
    have before := absent same
    rw [find_append, Option.or_eq_none_iff] at before
    rw [find_append, before.1, find_cons, if_pos same]
    rfl
  case isFalse other => rw [find_append, find_cons, if_neg other, find_append]

namespace Agenda

/-- What the memory of an event tells of its life. -/
def view (s : Agenda τ) (id : Nat) : Option (Int × Bool) :=
  (find id s.listed).map fun e => (e.id, e.finalizerProc)

private theorem view_found {s : Agenda τ} {id : Nat} (found : find id s.listed = some e) :
    s.view id = some (e.id, e.finalizerProc) :=
  congrArg (Option.map fun e : Event τ => (e.id, e.finalizerProc)) found

private theorem view_absent {s : Agenda τ} {id : Nat} (absent : find id s.listed = none) :
    s.view id = none :=
  congrArg (Option.map fun e : Event τ => (e.id, e.finalizerProc)) absent

private theorem view_same {s next : Agenda τ} {id : Nat}
    (same : find id next.listed = find id s.listed) : next.view id = s.view id :=
  congrArg (Option.map fun e : Event τ => (e.id, e.finalizerProc)) same

def Finalizes (s : Agenda τ) (id : Nat) : Prop :=
  ∃ e maxId, s.phase = .inFinalizer e maxId ∧ e.born = id

/-- The life goes with what is in the memory. -/
inductive Standing (s : Agenda τ) (id : Nat) : Life → Prop
  | unborn (absent : s.view id = none) (apart : ¬ s.Finalizes id) : Standing s id .unborn
  | live (here : s.view id = some ((id : Int), finalizerProc)) (apart : ¬ s.Finalizes id)
      (known : id < s.timeEventNextId) : Standing s id (.live finalizerProc)
  | ended (here : s.view id = some (AE_DELETED_EVENT_ID, finalizerProc))
      (apart : ¬ s.Finalizes id) (known : id < s.timeEventNextId) :
    Standing s id (.ended finalizerProc)
  | finalizing (absent : s.view id = none) (last : s.Finalizes id)
      (known : id < s.timeEventNextId) : Standing s id .finalizing
  | freed (absent : s.view id = none) (apart : ¬ s.Finalizes id)
      (known : id < s.timeEventNextId) : Standing s id .freed

def Lives (s : Agenda τ) (id : Nat) : Prop :=
  ∃ life, lifeOf id s.log = some life ∧ s.Standing id life

private theorem start_lives (now : Int) (id : Nat) : (start now : Agenda τ).Lives id := by
  refine ⟨.unborn, rfl, .unborn rfl ?_⟩
  rintro ⟨e, maxId, ⟨⟩, -⟩

private theorem Standing.same {s next : Agenda τ} {id : Nat} {life : Life}
    (standing : s.Standing id life)
    (view : next.view id = s.view id) (finalizes : next.Finalizes id ↔ s.Finalizes id)
    (count : s.timeEventNextId ≤ next.timeEventNextId) : next.Standing id life := by
  cases standing with
  | unborn absent apart => exact .unborn (view.trans absent) (mt finalizes.mp apart)
  | live here apart known =>
    exact .live (view.trans here) (mt finalizes.mp apart) (known.trans_le count)
  | ended here apart known =>
    exact .ended (view.trans here) (mt finalizes.mp apart) (known.trans_le count)
  | finalizing absent last known =>
    exact .finalizing (view.trans absent) (finalizes.mpr last) (known.trans_le count)
  | freed absent apart known =>
    exact .freed (view.trans absent) (mt finalizes.mp apart) (known.trans_le count)

/-- Nothing happens to the event. -/
theorem Lives.same {s next : Agenda τ} {id : Nat} {news : List Entry} (lives : s.Lives id)
    (log : next.log = s.log ++ news) (quiet : about id news = [])
    (view : next.view id = s.view id) (finalizes : next.Finalizes id ↔ s.Finalizes id)
    (count : s.timeEventNextId ≤ next.timeEventNextId) : next.Lives id := by
  obtain ⟨life, lived, standing⟩ := lives
  refine ⟨life, ?_, standing.same view finalizes count⟩
  rw [log, lifeOf_append lived, quiet]
  rfl

/-- One thing happens to the event. -/
theorem Lives.entry {s next : Agenda τ} {id : Nat} {entry : Entry} {life : Life}
    (lived : lifeOf id s.log = some life) (log : next.log = s.log ++ [entry])
    (same : entry.born = id) (goes : life.after entry = some later)
    (standing : next.Standing id later) : next.Lives id := by
  refine ⟨later, ?_, standing⟩
  rw [log, lifeOf_append lived, about_self same, run, goes]
  rfl

/-- An event that is listed is live or has ended. -/
theorem Lives.of_listed {s : Agenda τ} {id : Nat} {e : Event τ} (lives : s.Lives id)
    (here : find id s.listed = some e) :
    ¬ s.Finalizes id ∧ id < s.timeEventNextId ∧
      (e.id ≠ AE_DELETED_EVENT_ID → e.id = id ∧ lifeOf id s.log = some (.live e.finalizerProc)) ∧
      (e.id = AE_DELETED_EVENT_ID → lifeOf id s.log = some (.ended e.finalizerProc)) := by
  obtain ⟨life, lived, standing⟩ := lives
  have view : s.view id = some (e.id, e.finalizerProc) := view_found here
  cases standing with
  | unborn absent | finalizing absent | freed absent => cases view.symm.trans absent
  | live found apart known =>
    obtain ⟨named, rfl⟩ := Prod.mk.inj (Option.some.inj (view.symm.trans found))
    refine ⟨apart, known, fun _ => ⟨named, lived⟩, fun past => ?_⟩
    rw [named, AE_DELETED_EVENT_ID] at past
    omega
  | ended found apart known =>
    obtain ⟨past, rfl⟩ := Prod.mk.inj (Option.some.inj (view.symm.trans found))
    exact ⟨apart, known, fun live => (live past).elim, fun _ => lived⟩

private theorem Inv.nodup {s : Agenda τ} (inv : s.Inv) : (ids s.listed).Nodup :=
  inv.sorted.imp fun later => later.ne'

/-- The pass goes past an event. -/
theorem Inv.find_passed {s : Agenda τ} {e left : Event τ} {rest : List (Event τ)} (inv : s.Inv)
    (here : s.ahead = e :: rest) (same : left.born = e.born) (id : Nat) :
    find id ((s.seen ++ [left]) ++ rest) =
      if e.born = id then some left else find id s.listed := by
  have apart := inv.nodup
  rw [listed, here] at apart
  have still : (ids (s.seen ++ left :: rest)).Nodup := by
    rw [ids, List.map_append, List.map_cons] at apart ⊢
    rwa [same]
  rw [← List.append_cons, (find_middle still id).1, same, listed, here, (find_middle apart id).1]
  split <;> rfl

/-- The pass takes an event out. -/
theorem Inv.find_taken {s : Agenda τ} {e : Event τ} {rest : List (Event τ)} (inv : s.Inv)
    (here : s.ahead = e :: rest) (id : Nat) :
    find id (s.seen ++ rest) = if e.born = id then none else find id s.listed := by
  have apart := inv.nodup
  rw [listed, here] at apart
  obtain ⟨found, absent⟩ := find_middle apart id
  split
  case isTrue same => exact absent same
  case isFalse other => rw [listed, here, found, if_neg other]

private theorem Inv.find_ahead {s : Agenda τ} {e : Event τ} {rest : List (Event τ)} (inv : s.Inv)
    (here : s.ahead = e :: rest) : find e.born s.listed = some e := by
  have apart := inv.nodup
  rw [listed, here] at apart
  rw [listed, here, (find_middle apart e.born).1, if_pos rfl]

/-- An event that the pass leaves as it was, but for the time it is due. -/
theorem Inv.view_passed {s : Agenda τ} {e left : Event τ} {rest : List (Event τ)} (inv : s.Inv)
    (here : s.ahead = e :: rest) (same : left.born = e.born) (named : left.id = e.id)
    (last : left.finalizerProc = e.finalizerProc) (id : Nat) (phase : Phase τ)
    (log : List Entry) :
    view ⟨s.seen ++ [left], rest, s.timeEventNextId, s.lastTime, phase, log⟩ id = s.view id := by
  have found := inv.find_passed here same id
  by_cases mine : e.born = id
  · subst mine
    rw [view_found (found.trans (if_pos rfl)), view_found (inv.find_ahead here), named, last]
  · exact view_same (found.trans (if_neg mine))

private theorem about_ending (e : Event τ) : about e.born e.ending = e.ending := by
  rw [Event.ending]
  split
  · rfl
  · exact about_self rfl

private theorem about_ending_other {id : Nat} {e : Event τ} (other : e.born ≠ id) :
    about id e.ending = [] := by
  rw [Event.ending]
  split
  · rfl
  · exact about_one other

/-- Of the events that end, one has the id. -/
theorem about_endings {events : List (Event τ)} (apart : (ids events).Nodup) (id : Nat)
    (named : Int) :
    about id (events.flatMap (Event.endings named)) =
      ((find id events).map (Event.endings named)).getD [] := by
  induction events with
  | nil => rfl
  | cons e rest ih =>
    obtain ⟨absent, apart⟩ := List.nodup_cons.mp apart
    have onward := ih apart
    rw [List.flatMap_cons, about, List.filter_append, find_cons]
    split
    case isTrue same =>
      subst same
      rw [find_eq_none.mpr absent] at onward
      have mine : about e.born (e.endings named) = e.endings named := by
        rw [Event.endings]
        split
        · exact about_ending e
        · rfl
      exact (congrArg₂ (· ++ ·) mine onward).trans (List.append_nil _)
    case isFalse other =>
      have none : about id (e.endings named) = [] := by
        rw [Event.endings]
        split
        · exact about_ending_other other
        · rfl
      exact (congrArg (· ++ _) none).trans onward

private theorem walking_not_finalizes {s : Agenda τ} (walking : s.phase = .walking maxId)
    (id : Nat) : ¬ s.Finalizes id := by
  rintro ⟨e, maxId, phase, -⟩
  cases walking.symm.trans phase

private theorem calling_not_finalizes {s : Agenda τ} (calling : s.phase = .inTimeProc maxId)
    (id : Nat) : ¬ s.Finalizes id := by
  rintro ⟨e, maxId, phase, -⟩
  cases calling.symm.trans phase

private theorem Lives.created {s : Agenda τ} {id : Nat} {e : Event τ} (lives : s.Lives id)
    (number : e.born = s.timeEventNextId) (named : e.id = e.born) :
    ({ s with
      timeEventNextId := s.timeEventNextId + 1, seen := e :: s.seen,
      log := s.log ++ [.created e.born e.finalizerProc] } : Agenda τ).Lives id := by
  by_cases same : e.born = id
  · obtain ⟨life, lived, standing⟩ := lives
    cases standing with
    | live _ _ known | ended _ _ known | finalizing _ _ known | freed _ _ known => omega
    | unborn absent apart =>
      refine Lives.entry lived rfl same rfl (.live ?_ apart ?_)
      · rw [← same, ← named, same]
        apply view_found
        rw [listed, List.cons_append, find_cons, if_pos same]
      · exact same.symm.trans_lt (number ▸ Nat.lt_succ_self _)
  · refine lives.same rfl (about_one same) (view_same ?_) Iff.rfl (Nat.le_succ _)
    rw [listed, List.cons_append, find_cons, if_neg same]
    rfl

/-- An event at which something ends it. -/
theorem Lives.ends {s next : Agenda τ} {id : Nat} {e : Event τ} {news : List Entry}
    (lives : s.Lives id) (here : find id s.listed = some e)
    (log : next.log = s.log ++ news) (ending : about id news = e.ending)
    (found : find id next.listed = some e.ended) (finalizes : next.Finalizes id ↔ s.Finalizes id)
    (count : s.timeEventNextId ≤ next.timeEventNextId) : next.Lives id := by
  obtain ⟨apart, known, live, -⟩ := lives.of_listed here
  by_cases past : e.id = AE_DELETED_EVENT_ID
  · refine lives.same log ?_ ?_ finalizes count
    · rw [ending, Event.ending, if_pos past]
    · rw [view_found here, view_found found, past]
      rfl
  · obtain ⟨-, lived⟩ := live past
    refine ⟨.ended e.finalizerProc, ?_,
      .ended (view_found found) (mt finalizes.mp apart) (known.trans_le count)⟩
    rw [log, lifeOf_append lived, ending, Event.ending, if_neg past]
    rfl

private theorem Lives.deleted {s : Agenda τ} {id : Nat} (inv : s.Inv) (lives : s.Lives id)
    (named : Int) :
    ({ s with
      seen := s.seen.map (Event.endIf named)
      ahead := s.ahead.map (Event.endIf named)
      log := s.log ++ s.listed.flatMap (Event.endings named) } : Agenda τ).Lives id := by
  have quiet := about_endings inv.nodup id named
  have found : find id (s.seen.map (Event.endIf named) ++ s.ahead.map (Event.endIf named)) =
      (find id s.listed).map (Event.endIf named) := by
    rw [← List.map_append, find_map]
    · rfl
    · intro e
      rw [Event.endIf]
      split <;> rfl
  cases here : find id s.listed with
  | none =>
    rw [here] at quiet found
    exact lives.same rfl quiet ((view_absent found).trans (view_absent here).symm) Iff.rfl le_rfl
  | some e =>
    rw [here] at quiet found
    by_cases same : e.id = named
    · refine lives.ends here rfl (quiet.trans ?_) (found.trans ?_) Iff.rfl le_rfl
      · exact if_pos same
      · exact congrArg some (if_pos same)
    · refine lives.same rfl (quiet.trans (if_neg same)) (view_same ?_) Iff.rfl le_rfl
      exact found.trans ((congrArg some (if_neg same)).trans here.symm)

/-- Something happens to the live event the pass is at, and it stays live. -/
theorem Lives.noted {s next : Agenda τ} {id : Nat} {e : Event τ} {entry : Entry} (inv : s.Inv)
    (lives : s.Lives id) (here : s.ahead = e :: rest) (live : e.id ≠ AE_DELETED_EVENT_ID)
    (log : next.log = s.log ++ [entry]) (mine : entry.born = e.born)
    (goes : e.id = e.born →
      (Life.live e.finalizerProc).after entry = some (.live e.finalizerProc))
    (view : next.view id = s.view id) (finalizes : next.Finalizes id ↔ s.Finalizes id)
    (count : s.timeEventNextId ≤ next.timeEventNextId) : next.Lives id := by
  by_cases same : e.born = id
  · subst same
    obtain ⟨named, lived⟩ := (lives.of_listed (inv.find_ahead here)).2.2.1 live
    obtain ⟨life, again, standing⟩ := lives
    cases lived.symm.trans again
    exact Lives.entry lived log mine (goes named) (standing.same view finalizes count)
  · exact lives.same log (about_one (mine ▸ same)) view finalizes count

/-- The pass takes the event it is at out of the list, since it has ended. -/
theorem Lives.taken {s : Agenda τ} {id : Nat} {e : Event τ} {rest : List (Event τ)}
    {phase : Phase τ} {entry : Entry} (inv : s.Inv) (lives : s.Lives id)
    (walking : s.phase = .walking maxId) (here : s.ahead = e :: rest)
    (past : e.id = AE_DELETED_EVENT_ID) (mine : entry.born = e.born)
    (goes : (Life.ended e.finalizerProc).after entry = some later)
    (stands : ∀ next : Agenda τ, next.phase = phase → next.view e.born = none →
      e.born < next.timeEventNextId → next.Standing e.born later)
    (aside : ∀ next : Agenda τ, next.phase = phase → e.born ≠ id → ¬ next.Finalizes id) :
    ({ s with ahead := rest, phase := phase, log := s.log ++ [entry] } : Agenda τ).Lives id := by
  have found := inv.find_taken here id
  by_cases same : e.born = id
  · subst same
    obtain ⟨-, known, -, ended⟩ := lives.of_listed (inv.find_ahead here)
    exact Lives.entry (ended past) rfl mine goes
      (stands _ rfl (view_absent (found.trans (if_pos rfl))) known)
  · exact lives.same rfl (about_one (mine ▸ same)) (view_same (found.trans (if_neg same)))
      (iff_of_false (aside _ rfl same) (walking_not_finalizes walking id)) le_rfl

private theorem Lives.step {s next : Agenda τ} {move : Move α τ} {id : Nat} (inv : s.Inv)
    (lives : s.Lives id) (took : s.Step move next) : next.Lives id := by
  cases took with
  | refused calls =>
    exact lives.same (List.append_nil _).symm rfl rfl Iff.rfl (Nat.le_succ _)
  | created calls => exact lives.created rfl rfl
  | deleted calls => exact lives.deleted inv _
  | @entered _ now idle =>
    have all : s.listed = s.seen := by rw [listed, inv.idle idle, List.append_nil]
    have apart : ¬ s.Finalizes id := by
      rintro ⟨e, maxId, phase, -⟩
      cases idle.symm.trans phase
    refine lives.same (List.append_nil _).symm rfl ?_
      (iff_of_false (walking_not_finalizes rfl id) apart) le_rfl
    rw [view, view, all, listed, List.nil_append]
    split
    · rw [find_map id Event.rewound fun _ => rfl, Option.map_map]
      rfl
    · rfl
  | collected e rest maxId walking here past plain =>
    refine lives.taken inv walking here past rfl (by rw [plain]; rfl) ?_ ?_
    · exact fun next phase absent known => .freed absent (walking_not_finalizes phase _) known
    · exact fun next phase _ => walking_not_finalizes phase id
  | unlinked e rest maxId walking here past last =>
    refine lives.taken inv walking here past rfl (by rw [last]; rfl) ?_ ?_
    · exact fun next phase absent known => .finalizing absent ⟨e, maxId, phase, rfl⟩ known
    · rintro next phase same ⟨other, _, phase', number⟩
      cases phase.symm.trans phase'
      exact same number
  | newer e rest maxId walking here live late =>
    exact lives.same (List.append_nil _).symm rfl (inv.view_passed here rfl rfl rfl id _ _)
      (iff_of_false (walking_not_finalizes rfl id) (walking_not_finalizes walking id)) le_rfl
  | fired e rest maxId walking here live old passed =>
    exact lives.noted inv here live rfl rfl (fun named => if_pos named) rfl
      (iff_of_false (calling_not_finalizes rfl id) (walking_not_finalizes walking id)) le_rfl
  | waits e rest maxId walking here live old early =>
    exact lives.noted inv here live rfl rfl (fun _ => rfl)
      (inv.view_passed here rfl rfl rfl id _ _)
      (iff_of_false (walking_not_finalizes rfl id) (walking_not_finalizes walking id)) le_rfl
  | again e rest maxId calling here more =>
    refine lives.same (List.append_nil _).symm rfl ?_
      (iff_of_false (walking_not_finalizes rfl id) (calling_not_finalizes calling id)) le_rfl
    apply inv.view_passed here <;> rfl
  | nomore e rest maxId calling here past =>
    have found := inv.find_passed here (show e.ended.born = e.born from rfl) id
    have aside : Finalizes { s with
        seen := s.seen ++ [e.ended], ahead := rest, phase := .walking maxId,
        log := s.log ++ e.ending } id ↔ s.Finalizes id :=
      iff_of_false (walking_not_finalizes rfl id) (calling_not_finalizes calling id)
    by_cases same : e.born = id
    · subst same
      exact lives.ends (inv.find_ahead here) rfl (about_ending e) (found.trans (if_pos rfl)) aside
        le_rfl
    · exact lives.same rfl (about_ending_other same) (view_same (found.trans (if_neg same))) aside
        le_rfl
  | finalized e maxId calling =>
    by_cases same : e.born = id
    · obtain ⟨life, lived, standing⟩ := lives
      have last : s.Finalizes id := ⟨e, maxId, calling, same⟩
      cases standing with
      | unborn _ apart | live _ apart | ended _ apart | freed _ apart => exact (apart last).elim
      | finalizing absent _ known =>
        exact Lives.entry lived rfl same rfl
          (.freed absent (walking_not_finalizes rfl id) known)
    · refine lives.same rfl (about_one same) rfl
        (iff_of_false (walking_not_finalizes rfl id) ?_) le_rfl
      rintro ⟨other, maxId, phase, number⟩
      cases calling.symm.trans phase
      exact same number
  | finished walking all =>
    refine lives.same (List.append_nil _).symm rfl rfl
      (iff_of_false ?_ (walking_not_finalizes walking id)) le_rfl
    rintro ⟨e, maxId, ⟨⟩, -⟩

private theorem Lives.steps {s last : Agenda τ} {moves : List (Move α τ)} (inv : s.Inv)
    (took : Steps s moves last) (lives : ∀ id, s.Lives id) : ∀ id, last.Lives id := by
  induction took with
  | nil => exact lives
  | cons took onward ih => exact ih (inv.step took) fun id => (lives id).step inv took

end Agenda

/-! ## The memory of an event -/

theorem Represents.memory {c : Chain α τ} {s : Agenda τ} (represents : Represents c s)
    (there : c.heap te = some cell) :
    cell.value ∈ s.listed ∨ s.Finalizes cell.value.born := by
  cases represents with
  | @intro heap seen ahead loose stage phase holds placed timeEventNextId lastTime log =>
    obtain listed | free := List.mem_append.mp (holds.member there)
    · left
      rw [Agenda.listed, ← List.map_append]
      exact List.mem_map.mpr ⟨_, listed, rfl⟩
    · cases placed with
      | idle | walking | inTimeProc => cases free
      | inFinalizer te e ahead maxId =>
        cases List.mem_singleton.mp free
        exact .inr ⟨_, maxId, rfl, rfl⟩

private theorem Represents.listed {c : Chain α τ} {s : Agenda τ} (represents : Represents c s)
    (member : e ∈ s.listed) : ∃ te cell, c.heap te = some cell ∧ cell.value = e := by
  cases represents with
  | intro holds placed timeEventNextId lastTime log =>
    rw [Agenda.listed, ← List.map_append] at member
    obtain ⟨⟨te, e⟩, listed, rfl⟩ := List.mem_map.mp member
    exact ⟨te, holds.stored (List.mem_append_left _ listed)⟩

private theorem Represents.finalized {c : Chain α τ} {s : Agenda τ} {id : Nat}
    (represents : Represents c s) (last : s.Finalizes id) :
    ∃ te next maxId cell, c.stage = .inFinalizer te next maxId ∧ c.heap te = some cell ∧
      cell.value.born = id := by
  obtain ⟨e, maxId, phase, rfl⟩ := last
  cases represents with
  | intro holds placed timeEventNextId lastTime log =>
    cases placed with
    | idle | walking | inTimeProc => cases phase
    | inFinalizer te e ahead maxId =>
      cases phase
      obtain ⟨cell, read, rfl⟩ := holds.read_loose
      exact ⟨te, _, _, cell, rfl, read, rfl⟩

/-- What the memory says of an event at each point of its life. -/
def Stands (c : Chain α τ) (id : Nat) : Life → Prop
  | .unborn => ∀ te cell, c.heap te = some cell → cell.value.born ≠ id
  | .live finalizerProc => ∃ te cell, c.heap te = some cell ∧ cell.value.born = id ∧
      cell.value.id = id ∧ cell.value.finalizerProc = finalizerProc
  | .ended finalizerProc => ∃ te cell, c.heap te = some cell ∧ cell.value.born = id ∧
      cell.value.id = AE_DELETED_EVENT_ID ∧ cell.value.finalizerProc = finalizerProc
  | .finalizing => ∃ te next maxId cell, c.stage = .inFinalizer te next maxId ∧
      c.heap te = some cell ∧ cell.value.born = id
  | .freed => id < c.timeEventNextId ∧ ∀ te cell, c.heap te = some cell → cell.value.born ≠ id

private theorem Represents.viewed {c : Chain α τ} {s : Agenda τ} {id : Nat}
    (represents : Represents c s) (here : s.view id = some (named, finalizerProc)) :
    ∃ te cell, c.heap te = some cell ∧ cell.value.born = id ∧ cell.value.id = named ∧
      cell.value.finalizerProc = finalizerProc := by
  obtain ⟨e, found, same⟩ := Option.map_eq_some_iff.mp here
  obtain ⟨rfl, rfl⟩ := Prod.mk.inj same
  obtain ⟨te, cell, there, rfl⟩ := represents.listed (List.mem_of_find?_eq_some found)
  exact ⟨te, cell, there, find_born found, rfl, rfl⟩

private theorem Represents.gone {c : Chain α τ} {s : Agenda τ} {id : Nat}
    (represents : Represents c s) (absent : s.view id = none) (apart : ¬ s.Finalizes id) (te : α)
    (cell : Cell α (Event τ)) (there : c.heap te = some cell) : cell.value.born ≠ id := by
  rintro rfl
  obtain listed | last := represents.memory there
  · exact find_eq_none.mp (Option.map_eq_none_iff.mp absent) (List.mem_map.mpr ⟨_, listed, rfl⟩)
  · exact apart last

private theorem Represents.stands {c : Chain α τ} {s : Agenda τ} {id : Nat} {life : Life}
    (represents : Represents c s) (standing : s.Standing id life) : Stands c id life := by
  cases standing with
  | unborn absent apart => exact represents.gone absent apart
  | live here apart known => exact represents.viewed here
  | ended here apart known => exact represents.viewed here
  | finalizing absent last known => exact represents.finalized last
  | freed absent apart known => exact ⟨represents.count_eq ▸ known, represents.gone absent apart⟩

variable [DecidableEq α]

private theorem reached_lives {c : Chain α τ}
    (ran : run Chain.step (Chain.start now) moves = some c) :
    ∃ s, Represents c s ∧ ∀ id, s.Lives id := by
  obtain ⟨s, steps, represents, -⟩ := reached_represents ran
  exact ⟨s, represents, (Agenda.Lives.steps (Agenda.start_inv now) steps (Agenda.start_lives now))⟩

/-- Whatever the program and its callbacks do, each time event is created at most once; its
callback gets the id it was created with and is never called once the event was deleted or has
returned `AE_NOMORE`; it is finalized if it has a finalizer, and only then freed, once. What is
allocated are the events of which that has not happened yet. -/
theorem event_lives_once {c : Chain α τ}
    (ran : run Chain.step (Chain.start now) moves = some c) (id : Nat) :
    ∃ life, lifeOf id c.log = some life ∧ Stands c id life := by
  obtain ⟨s, represents, lives⟩ := reached_lives ran
  obtain ⟨life, lived, standing⟩ := lives id
  exact ⟨life, represents.log_eq ▸ lived, represents.stands standing⟩

theorem busyMoves_lives :
    ∃ c, run Chain.step (Chain.start 0) busyMoves = some c ∧
      (∀ id, ∃ life, lifeOf id c.log = some life ∧ Stands c id life) ∧
      lifeOf 0 c.log = some .freed ∧ lifeOf 1 c.log = some (.ended false) ∧
      lifeOf 2 c.log = some .unborn ∧ lifeOf 4 c.log = some (.live false) := by
  have lived : (run Chain.step (Chain.start 0) busyMoves).any (fun c => decide
      (lifeOf 0 c.log = some .freed ∧ lifeOf 1 c.log = some (.ended false) ∧
        lifeOf 2 c.log = some .unborn ∧ lifeOf 4 c.log = some (.live false))) = true := by
    decide +kernel
  obtain ⟨c, ran, lives⟩ := (Option.any_eq_true _ _).mp lived
  exact ⟨c, ran, event_lives_once ran, of_decide_eq_true lives⟩

end TcpCongestion.TimerChain
