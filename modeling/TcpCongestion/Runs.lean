import Mathlib.Data.List.Basic
import Mathlib.Data.List.Infix

/-! Runs of a machine whose step may be refused. `step s event` is `none` where
the event cannot happen in `s` or ends the process, so a run that has a result
took every one of its steps. -/
namespace TcpCongestion.Runs

variable {σ : Type u} {ε : Type v} (step : σ → ε → Option σ)

/-- The state after all the events, in order. -/
def run (s : σ) : List ε → Option σ
  | [] => some s
  | event :: rest => (step s event).bind fun next => run next rest

/-- Every state on the way satisfies `P`, the first and the last included. -/
def Always (P : σ → Prop) (s : σ) (events : List ε) : Prop :=
  ∀ before, before <+: events → ∀ mid, run step s before = some mid → P mid

/-- Every step on the way satisfies `good`. -/
def Along (good : σ → ε → Prop) (s : σ) (events : List ε) : Prop :=
  ∀ before event, before ++ [event] <+: events →
    ∀ mid, run step s before = some mid → good mid event

variable {step}

theorem run_cons : run step s (event :: rest) = some last ↔
    ∃ next, step s event = some next ∧ run step next rest = some last :=
  Option.bind_eq_some_iff

theorem run_append : run step s (first ++ second) = some last ↔
    ∃ mid, run step s first = some mid ∧ run step mid second = some last := by
  induction first generalizing s with
  | nil =>
    constructor
    · intro ran
      exact ⟨s, rfl, ran⟩
    · rintro ⟨mid, same, ran⟩
      cases same
      exact ran
  | cons event rest ih =>
    rw [List.cons_append, run_cons]
    simp only [ih, run_cons]
    constructor
    · rintro ⟨next, began, mid, onward, ran⟩
      exact ⟨mid, ⟨next, began, onward⟩, ran⟩
    · rintro ⟨mid, ⟨next, began, onward⟩, ran⟩
      exact ⟨next, began, mid, onward, ran⟩

theorem run_concat : run step s (events ++ [event]) = some last ↔
    ∃ mid, run step s events = some mid ∧ step mid event = some last := by
  simp only [run_append, run, Option.bind_fun_some]

/-- What each of the events keeps, the run keeps. -/
theorem run_invariant_of_mem {P : σ → Prop} (initial : P s)
    (kept : ∀ mid event next, event ∈ events → P mid → step mid event = some next → P next)
    (ran : run step s events = some last) : P last := by
  induction events generalizing s with
  | nil =>
    cases ran
    exact initial
  | cons event rest ih =>
    obtain ⟨next, took, onward⟩ := run_cons.mp ran
    exact ih (kept s event next List.mem_cons_self initial took)
      (fun mid event next member => kept mid event next (List.mem_cons_of_mem _ member)) onward

/-- What every step keeps, every run keeps. -/
theorem run_invariant {P : σ → Prop} (initial : P s)
    (kept : ∀ mid event next, P mid → step mid event = some next → P next)
    (ran : run step s events = some last) : P last :=
  run_invariant_of_mem initial (fun mid event next _ => kept mid event next) ran

theorem always_nil {P : σ → Prop} : Always step P s [] ↔ P s := by
  constructor
  · intro always
    exact always [] List.prefix_rfl s rfl
  · intro holds before part mid reached
    rw [List.prefix_nil.mp part] at reached
    cases reached
    exact holds

theorem always_cons {P : σ → Prop} :
    Always step P s (event :: rest) ↔
      P s ∧ ∀ next, step s event = some next → Always step P next rest := by
  constructor
  · intro always
    refine ⟨always [] List.nil_prefix s rfl, fun next took before part mid reached => ?_⟩
    refine always (event :: before) (List.cons_prefix_cons.mpr ⟨rfl, part⟩) mid ?_
    rw [run, took]
    exact reached
  · rintro ⟨first, later⟩ before part mid reached
    cases before with
    | nil =>
      cases reached
      exact first
    | cons head tail =>
      obtain ⟨rfl, shorter⟩ := List.cons_prefix_cons.mp part
      obtain ⟨next, took, onward⟩ := run_cons.mp reached
      exact later next took tail shorter mid onward

theorem along_nil (good : σ → ε → Prop) (s : σ) : Along step good s [] := by
  intro before event part
  simp at part

theorem along_cons {good : σ → ε → Prop} :
    Along step good s (event :: rest) ↔
      good s event ∧ ∀ next, step s event = some next → Along step good next rest := by
  constructor
  · intro along
    refine ⟨along [] event (by simp) s rfl, fun next took before later part mid reached => ?_⟩
    refine along (event :: before) later (List.cons_prefix_cons.mpr ⟨rfl, part⟩) mid ?_
    rw [run, took]
    exact reached
  · rintro ⟨first, onward⟩ before later part mid reached
    cases before with
    | nil =>
      cases reached
      obtain ⟨rfl, _⟩ := List.cons_prefix_cons.mp part
      exact first
    | cons head tail =>
      obtain ⟨rfl, shorter⟩ := List.cons_prefix_cons.mp part
      obtain ⟨next, took, onto⟩ := run_cons.mp reached
      exact onward next took tail later shorter mid onto

/-- Whether all steps are good is settled by taking them. -/
instance Along.decidable {good : σ → ε → Prop} [∀ s event, Decidable (good s event)] :
    (s : σ) → (events : List ε) → Decidable (Along step good s events)
  | s, [] => isTrue (along_nil good s)
  | s, event :: rest =>
    have : ∀ next, Decidable (Along step good next rest) := fun next => decidable next rest
    decidable_of_iff
      (good s event ∧ (step s event).all (fun next => decide (Along step good next rest)) = true)
      (by simp only [along_cons, Option.all_eq_true, decide_eq_true_eq])

theorem along_concat {good : σ → ε → Prop} (along : Along step good s events)
    (ran : run step s events = some mid) (last : good mid event) :
    Along step good s (events ++ [event]) := by
  induction events generalizing s with
  | nil =>
    cases ran
    exact along_cons.mpr ⟨last, fun next _ => along_nil good next⟩
  | cons first rest ih =>
    obtain ⟨next, took, onward⟩ := run_cons.mp ran
    obtain ⟨begins, later⟩ := along_cons.mp along
    refine along_cons.mpr ⟨begins, fun other again => ?_⟩
    cases took.symm.trans again
    exact ih (later next took) onward

/-- Two ways to be good that agree on the steps that can be taken. -/
theorem along_congr {good fine : σ → ε → Prop} (ran : run step s events = some last)
    (same : ∀ mid event next, step mid event = some next → (good mid event ↔ fine mid event)) :
    Along step good s events ↔ Along step fine s events := by
  induction events generalizing s with
  | nil => exact ⟨fun _ => along_nil fine s, fun _ => along_nil good s⟩
  | cons event rest ih =>
    obtain ⟨next, took, onward⟩ := run_cons.mp ran
    rw [along_cons, along_cons, same s event next took]
    refine and_congr_right fun _ => forall_congr' fun other => imp_congr_right fun again => ?_
    cases took.symm.trans again
    exact ih onward

theorem always_of_along {P : σ → Prop} {good : σ → ε → Prop} (initial : P s)
    (kept : ∀ mid event next, P mid → good mid event → step mid event = some next → P next)
    (along : Along step good s events) : Always step P s events := by
  induction events generalizing s with
  | nil => exact always_nil.mpr initial
  | cons event rest ih =>
    obtain ⟨first, later⟩ := along_cons.mp along
    exact always_cons.mpr ⟨initial, fun next took =>
      ih (kept s event next initial first took) (later next took)⟩

/-- Where a good step is always possible and keeps the invariant, a run of good steps
comes to its end. -/
theorem run_of_along {Inv : σ → Prop} {good : σ → ε → Prop} (initial : Inv s)
    (possible : ∀ mid event, Inv mid → good mid event →
      ∃ next, step mid event = some next ∧ Inv next)
    (along : Along step good s events) : ∃ last, run step s events = some last ∧ Inv last := by
  induction events generalizing s with
  | nil => exact ⟨s, rfl, initial⟩
  | cons event rest ih =>
    obtain ⟨first, later⟩ := along_cons.mp along
    obtain ⟨next, took, kept⟩ := possible s event initial first
    obtain ⟨last, onward, reached⟩ := ih kept (later next took)
    exact ⟨last, run_cons.mpr ⟨next, took, onward⟩, reached⟩

theorem along_and {good fine : σ → ε → Prop} (first : Along step good s events)
    (second : Along step fine s events) :
    Along step (fun mid event => good mid event ∧ fine mid event) s events :=
  fun before event part mid reached =>
    ⟨first before event part mid reached, second before event part mid reached⟩

/-- What the invariant gives of the next step. -/
theorem along_of_always_inv {Inv : σ → Prop} {good fine : σ → ε → Prop}
    (gives : ∀ mid event, Inv mid → good mid event → fine mid event)
    (always : Always step Inv s events) (along : Along step good s events) :
    Along step fine s events := by
  intro before event part mid reached
  have inv := always before ((List.prefix_append before [event]).trans part) mid reached
  exact gives mid event inv (along before event part mid reached)

/-- Where a step that is not good can be made and breaks the property at once, the runs in
which the property always holds have only good steps. -/
theorem along_of_always {P Inv : σ → Prop} {assumed good : σ → ε → Prop} (initial : Inv s)
    (kept : ∀ mid event next, Inv mid → assumed mid event → good mid event →
      step mid event = some next → Inv next)
    (broken : ∀ mid event, Inv mid → ¬ good mid event →
      ∃ next, step mid event = some next ∧ ¬ P next)
    (given : Along step assumed s events) (always : Always step P s events) :
    Along step good s events := by
  induction events generalizing s with
  | nil => exact along_nil good s
  | cons event rest ih =>
    obtain ⟨first, later⟩ := along_cons.mp given
    have onward := (always_cons.mp always).2
    have fine : good s event := by
      by_contra bad
      obtain ⟨next, took, breaks⟩ := broken s event initial bad
      exact breaks (onward next took [] List.nil_prefix next rfl)
    exact along_cons.mpr ⟨fine, fun next took =>
      ih (kept s event next initial first fine took) (later next took) (onward next took)⟩

/-- When a good step keeps the invariant and any other step breaks the property
at once, the runs in which the property always holds are those of good steps. -/
theorem always_iff_along {P Inv : σ → Prop} {good : σ → ε → Prop} (initial : Inv s)
    (enough : ∀ mid, Inv mid → P mid)
    (kept : ∀ mid event next, Inv mid → good mid event → step mid event = some next → Inv next)
    (broken : ∀ mid event next, Inv mid → ¬ good mid event → step mid event = some next → ¬ P next)
    (ran : run step s events = some last) :
    Always step P s events ↔ Along step good s events := by
  constructor
  · intro always
    induction events generalizing s with
    | nil => exact along_nil good s
    | cons event rest ih =>
      obtain ⟨next, took, onward⟩ := run_cons.mp ran
      have later := (always_cons.mp always).2 next took
      have holds : P next := later [] List.nil_prefix next rfl
      have first : good s event := by
        by_contra bad
        exact broken s event next initial bad took holds
      refine along_cons.mpr ⟨first, fun other again => ?_⟩
      cases took.symm.trans again
      exact ih (kept s event next initial first took) onward later
  · intro along before part mid reached
    exact enough mid (always_of_along initial kept along before part mid reached)

/-- Steps that correspond through a map make runs that do. -/
theorem run_map {step' : τ → ε → Option τ} {f : σ → τ} {P : σ → Prop} {good : σ → ε → Prop}
    (initial : P s)
    (kept : ∀ mid event next, P mid → good mid event → step mid event = some next → P next)
    (same : ∀ mid event, P mid → good mid event → (step mid event).map f = step' (f mid) event)
    (along : Along step good s events) : (run step s events).map f = run step' (f s) events := by
  induction events generalizing s with
  | nil => rfl
  | cons event rest ih =>
    obtain ⟨fine, later⟩ := along_cons.mp along
    rw [run, run, ← same s event initial fine]
    cases took : step s event with
    | none => rfl
    | some next => exact ih (kept s event next initial fine took) (later next took)

end TcpCongestion.Runs
