import TcpCongestion.FileEvents

/-! What calls on the file events keep. `maxfd` is exact, and the kernel agrees with the table as
long as nobody closes a registered descriptor. The `EventLoop` that the server and the client
use is this loop with less of it. -/
namespace TcpCongestion.FileEventProofs
open Posix Runs FileEvents

variable {π δ : Type} {l next : Loop π δ} {op : Op π δ}

/-! ## `maxfd` -/

theorem registered_iff : Registered l fd ↔ fd < l.setsize ∧ (l.events fd).mask ≠ AE_NONE := by
  rw [Registered, Loop.aeGetFileEvents]
  split
  · next beyond => simp [AE_NONE, Nat.not_lt.mpr beyond]
  · next inside => simp [Nat.not_le.mp inside]

private theorem or_ne_none {old mask : BitVec 3} (asked : mask ≠ AE_NONE) :
    old ||| mask ≠ AE_NONE := by
  intro none
  have parts := BitVec.or_eq_zero_iff.mp none
  exact asked parts.2

/-- `maxfd` is the largest registered descriptor, or -1. -/
structure MaxfdExact (l : Loop π δ) : Prop where
  upper : ∀ fd, Registered l fd → (fd : Int) ≤ l.maxfd
  attained : l.maxfd = -1 ∨ ∃ fd : Nat, l.maxfd = fd ∧ Registered l fd

/-- What the search from `fd` down finds. -/
theorem lastBelow_spec (events : Nat → Entry π δ) (fd : Nat) :
    (∀ j, j < fd → (events j).mask ≠ AE_NONE → (j : Int) ≤ Loop.lastBelow events fd) ∧
      (Loop.lastBelow events fd = -1 ∨
        ∃ j : Nat, Loop.lastBelow events fd = j ∧ j < fd ∧ (events j).mask ≠ AE_NONE) := by
  induction fd with
  | zero => exact ⟨fun j below => absurd below (Nat.not_lt_zero j), .inl rfl⟩
  | succ fd ih =>
    rw [Loop.lastBelow]
    split
    · next used => exact ⟨fun j below _ => by omega, .inr ⟨fd, rfl, Nat.lt_succ_self fd, used⟩⟩
    · next unused =>
      obtain ⟨above, found⟩ := ih
      constructor
      · intro j below used
        refine above j (Nat.lt_of_le_of_ne (Nat.le_of_lt_succ below) ?_) used
        rintro rfl
        exact unused used
      · exact found.imp_right fun ⟨j, last, below, used⟩ => ⟨j, last, Nat.lt_succ_of_lt below, used⟩

/-- A table that changed at one place. -/
theorem registered_update {events : Nat → Entry π δ} {setsize fd : Nat} {fe : Entry π δ}
    (same : next.events = Function.update events fd fe) (size : next.setsize = setsize) :
    Registered next other ↔
      other < setsize ∧ (if other = fd then fe.mask else (events other).mask) ≠ AE_NONE := by
  rw [registered_iff, same, size, Function.update_apply, apply_ite Entry.mask]

private theorem MaxfdExact.create (held : MaxfdExact l) (inside : fd < l.setsize)
    (used : fe.mask ≠ AE_NONE) : MaxfdExact { l with
      events := Function.update l.events fd fe
      maxfd := max l.maxfd fd
      polled := polled } := by
  constructor
  · intro other registered
    rw [registered_update rfl rfl] at registered
    dsimp only
    split at registered
    · next same =>
      rw [same]
      exact Int.le_max_right _ _
    · exact Int.le_trans (held.upper other (registered_iff.mpr registered)) (Int.le_max_left _ _)
  · right
    obtain above | below := Int.lt_or_le l.maxfd fd
    · refine ⟨fd, Int.max_eq_right (Int.le_of_lt above), (registered_update rfl rfl).mpr ⟨inside, ?_⟩⟩
      rw [if_pos rfl]
      exact used
    · obtain none | ⟨last, same, registered⟩ := held.attained
      · omega
      · refine ⟨last, (Int.max_eq_left below).trans same, (registered_update rfl rfl).mpr ?_⟩
        obtain ⟨within, known⟩ := registered_iff.mp registered
        refine ⟨within, ?_⟩
        split
        · exact used
        · exact known

private theorem MaxfdExact.delete (held : MaxfdExact l) (inside : fd < l.setsize)
    (known : (l.events fd).mask ≠ AE_NONE)
    (top : maxfd = if fd = l.maxfd ∧ fe.mask = AE_NONE then
      Loop.lastBelow (Function.update l.events fd fe) fd else l.maxfd) :
    MaxfdExact { l with
      events := Function.update l.events fd fe
      maxfd := maxfd
      polled := polled } := by
  have before (other : Nat) (registered : other < l.setsize ∧
      (if other = fd then fe.mask else (l.events other).mask) ≠ AE_NONE) : Registered l other := by
    obtain ⟨within, used⟩ := registered
    refine registered_iff.mpr ⟨within, ?_⟩
    split at used
    · next same => exact same ▸ known
    · exact used
  split at top
  · next last =>
    obtain ⟨above, found⟩ := lastBelow_spec (Function.update l.events fd fe) fd
    constructor
    · intro other registered
      rw [registered_update rfl rfl] at registered
      have upper := held.upper other (before other registered)
      have different : other ≠ fd := by
        rintro rfl
        rw [if_pos rfl] at registered
        exact registered.2 last.2
      rw [if_neg different] at registered
      dsimp only
      rw [top]
      refine above other (by omega) ?_
      rw [Function.update_of_ne different]
      exact registered.2
    · refine found.imp (top.trans ·) fun ⟨j, same, below, used⟩ => ⟨j, top.trans same, ?_⟩
      exact registered_iff.mpr ⟨Nat.lt_trans below inside, used⟩
  · next kept =>
    constructor
    · intro other registered
      rw [registered_update rfl rfl] at registered
      dsimp only
      rw [top]
      exact held.upper other (before other registered)
    · refine held.attained.imp (top.trans ·) fun ⟨last, same, registered⟩ => ⟨last, top.trans same, ?_⟩
      obtain ⟨within, used⟩ := registered_iff.mp registered
      refine (registered_update rfl rfl).mpr ⟨within, ?_⟩
      split
      · next here =>
        subst here
        exact fun gone => kept ⟨same.symm, gone⟩
      · exact used

/-- A resize that is not refused registers and loses nothing. -/
theorem MaxfdExact.registered_resized (held : MaxfdExact l) {setsize : Int} (room : l.maxfd < setsize)
    (memory : Nat → Entry π δ) (fd : Nat) :
    Registered { l with setsize := setsize.toNat, events := resized l setsize memory } fd ↔
      Registered l fd := by
  rw [registered_iff, registered_iff]
  dsimp only [resized]
  constructor
  · rintro ⟨within, used⟩
    by_cases new : l.maxfd < fd
    · rw [if_pos ⟨new, by omega⟩] at used
      exact absurd rfl used
    · obtain none | ⟨last, same, registered⟩ := held.attained
      · omega
      · have bound := (registered_iff.mp registered).1
        have old : fd < l.setsize := by omega
        rw [if_neg fun both => new both.1, if_pos old] at used
        exact ⟨old, used⟩
  · rintro ⟨within, used⟩
    have upper := held.upper fd (registered_iff.mpr ⟨within, used⟩)
    refine ⟨by omega, ?_⟩
    rw [if_neg (by omega), if_pos within]
    exact used

private theorem MaxfdExact.step (held : MaxfdExact l) (took : l.step op = some next) :
    MaxfdExact next := by
  cases step_cases took with
  | kept => exact held
  | @created mask asked _ _ _ fd fe inside isOpen mask_eq =>
    exact held.create inside (mask_eq ▸ or_ne_none asked)
  | deleted fd fe maxfd polled inside known fe_eq top told nothingNew => exact held.delete inside known top
  | resized setsize memory room =>
    constructor
    · intro fd registered
      exact held.upper fd ((held.registered_resized room memory fd).mp registered)
    · exact held.attained.imp_right fun ⟨last, same, registered⟩ =>
        ⟨last, same, (held.registered_resized room memory last).mpr registered⟩
  | opened fd fresh => exact ⟨held.upper, held.attained⟩
  | closed fd isOpen => exact ⟨held.upper, held.attained⟩

private theorem created_maxfdExact (setsize : Nat) (memory : Nat → Entry π δ)
    (opened : Nat → Bool) : MaxfdExact (aeCreateEventLoop setsize memory opened) := by
  refine ⟨fun fd registered => ?_, .inl rfl⟩
  exact absurd rfl (registered_iff.mp registered).2

/-- In every run `maxfd` is the largest registered descriptor, so the search after a deletion
and the comparison before a resize never miss one. -/
theorem maxfd_is_largest_registered (setsize : Nat) (memory : Nat → Entry π δ)
    (opened : Nat → Bool) (ran : run Loop.step (aeCreateEventLoop setsize memory opened) ops = some l) :
    MaxfdExact l :=
  run_invariant (created_maxfdExact setsize memory opened) (fun _ _ _ held took => held.step took) ran

theorem readable_ne_none : AE_READABLE ≠ AE_NONE := by decide
private theorem barrier_ne_none : AE_WRITABLE ||| AE_BARRIER ≠ AE_NONE := by decide

/-- Two descriptors come and the later one goes. -/
def comeAndGo : List (Op Nat Nat) :=
  [.opens 3, .create 3 AE_READABLE readable_ne_none 0 30 none,
    .opens 5, .create 5 (AE_WRITABLE ||| AE_BARRIER) barrier_ne_none 1 50 none,
    .delete 5 AE_WRITABLE, .closes 5]

def unwritten : Nat → Entry Nat Nat := fun _ => ⟨AE_READABLE, none, none, none⟩

theorem maxfd_after_coming_and_going :
    ∃ l, run Loop.step (aeCreateEventLoop 8 unwritten fun _ => false) comeAndGo = some l ∧
      l.maxfd = 3 ∧ MaxfdExact l := by
  have ends : (run Loop.step (aeCreateEventLoop 8 unwritten fun _ => false) comeAndGo).any
      (fun l => decide (l.maxfd = 3)) = true := by decide +kernel
  obtain ⟨l, ran, last⟩ := Option.any_eq_true _ _ |>.mp ends
  exact ⟨l, ran, of_decide_eq_true last, maxfd_is_largest_registered 8 unwritten _ ran⟩

/-- After any run a resize is refused exactly where a registered descriptor would not fit, and
otherwise every registration is as it was and there is no other. -/
theorem resize_keeps_registrations (setsize : Nat) (memory fresh : Nat → Entry π δ)
    (opened : Nat → Bool) (size : Int) (wanted : 0 ≤ size)
    (ran : run Loop.step (aeCreateEventLoop setsize memory opened) ops = some l) :
    match l.aeResizeSetSize size fresh with
    | none => ∃ fd, Registered l fd ∧ size ≤ fd
    | some next => next.setsize = size ∧ (∀ fd, Registered next fd ↔ Registered l fd) ∧
        ∀ fd, Registered l fd → fd < size ∧ next.events fd = l.events fd := by
  have held : MaxfdExact l := run_invariant (created_maxfdExact setsize memory opened)
    (fun _ _ _ held took => held.step took) ran
  by_cases same : size = l.setsize
  · rw [Loop.aeResizeSetSize, if_pos same]
    refine ⟨same.symm, fun fd => Iff.rfl, fun fd registered => ⟨?_, rfl⟩⟩
    have inside := (registered_iff.mp registered).1
    omega
  by_cases full : l.maxfd ≥ size
  · rw [Loop.aeResizeSetSize, if_neg same, if_pos full]
    obtain none | ⟨last, top, registered⟩ := held.attained
    · omega
    · exact ⟨last, registered, by omega⟩
  · have room : l.maxfd < size := by omega
    rw [Loop.aeResizeSetSize, if_neg same, if_neg full]
    refine ⟨Int.toNat_of_nonneg wanted, held.registered_resized room fresh, fun fd registered => ?_⟩
    have upper := held.upper fd registered
    have inside := (registered_iff.mp registered).1
    refine ⟨by omega, ?_⟩
    dsimp only
    rw [if_neg (by omega), if_pos inside]

/-- There is room for descriptor 3 in four slots and not in three. -/
theorem resize_after_coming_and_going :
    ∃ l, run Loop.step (aeCreateEventLoop 8 unwritten fun _ => false) comeAndGo = some l ∧
      (∃ fd, Registered l fd ∧ 3 ≤ fd) ∧
      ∃ next, l.aeResizeSetSize 4 unwritten = some next ∧ ∀ fd, Registered next fd ↔ Registered l fd := by
  have ends : (run Loop.step (aeCreateEventLoop 8 unwritten fun _ => false) comeAndGo).any
      (fun l => (l.aeResizeSetSize 3 unwritten).isNone && (l.aeResizeSetSize 4 unwritten).isSome) = true := by
    decide +kernel
  obtain ⟨l, ran, both⟩ := Option.any_eq_true _ _ |>.mp ends
  obtain ⟨refused, done⟩ := Bool.and_eq_true_iff.mp both
  have three := resize_keeps_registrations 8 unwritten unwritten _ 3 (by decide) ran
  have four := resize_keeps_registrations 8 unwritten unwritten _ 4 (by decide) ran
  obtain ⟨next, resized⟩ := Option.isSome_iff_exists.mp done
  rw [Option.isNone_iff_eq_none.mp refused] at three
  rw [resized] at four
  obtain ⟨fd, registered, beyond⟩ := three
  exact ⟨l, ran, ⟨fd, registered, by omega⟩, next, resized, four.2.1⟩

/-! ## The kernel's set -/

/-- The kernel polls the registered descriptors, for the events they were registered for. -/
def KernelAgrees (l : Loop π δ) : Prop :=
  ∀ fd, l.polled fd = if Registered l fd then some (epollEvents (l.events fd).mask) else none

/-- The descriptor is out of the table when it is closed. -/
def ClosedLast (l : Loop π δ) : Op π δ → Prop
  | .closes fd => ¬ Registered l fd
  | .create _ _ _ _ _ _ | .delete _ _ | .resize _ _ | .opens _ => True

instance (l : Loop π δ) : (op : Op π δ) → Decidable (ClosedLast l op)
  | .closes _ => inferInstanceAs (Decidable (¬ _))
  | .create _ _ _ _ _ _ | .delete _ _ | .resize _ _ | .opens _ => inferInstanceAs (Decidable True)

/-- The kernel polls open descriptors only. -/
def PolledOpen (l : Loop π δ) : Prop := ∀ fd, l.polled fd ≠ none → l.opened fd = true

structure Kept (l : Loop π δ) : Prop where
  maxfd : MaxfdExact l
  agrees : KernelAgrees l
  opened : PolledOpen l

theorem Kept.polled (held : Kept l) (registered : Registered l fd) : l.polled fd ≠ none := by
  rw [held.agrees, if_pos registered]
  exact Option.some_ne_none _

/-- The entry of one descriptor and what the kernel has for it changed together. -/
theorem KernelAgrees.update (agrees : KernelAgrees l) (inside : fd < l.setsize)
    (events : next.events = Function.update l.events fd fe) (size : next.setsize = l.setsize)
    (polled : next.polled = Function.update l.polled fd
      (if fe.mask ≠ AE_NONE then some (epollEvents fe.mask) else none)) : KernelAgrees next := by
  intro other
  by_cases same : other = fd
  · subst same
    simp only [polled, events, registered_update events size, Function.update_self, if_true, inside,
      true_and]
  · simp only [polled, events, registered_update events size, Function.update_of_ne same, if_neg same,
      agrees other, registered_iff]

private theorem PolledOpen.step (held : PolledOpen l) (took : l.step op = some next) :
    PolledOpen next := by
  cases step_cases took with
  | kept => exact held
  | @created mask asked _ _ _ fd fe inside isOpen mask_eq =>
    intro other member
    by_cases same : other = fd
    · exact same ▸ isOpen
    · dsimp only at member
      rw [Function.update_of_ne same] at member
      exact held other member
  | deleted fd fe maxfd polled inside known fe_eq top told nothingNew =>
    exact fun other member => held other (nothingNew other member)
  | resized => exact held
  | opened fd fresh =>
    intro other member
    dsimp only
    rw [Function.update_apply]
    split
    · rfl
    · exact held other member
  | closed fd isOpen =>
    intro other member
    have different : other ≠ fd := by
      rintro rfl
      exact member (Function.update_self other none l.polled)
    dsimp only at member ⊢
    rw [Function.update_of_ne different] at member ⊢
    exact held other member

private theorem Kept.resize (held : Kept l) (room : l.maxfd < setsize) (memory : Nat → Entry π δ) :
    KernelAgrees { l with setsize := setsize.toNat, events := resized l setsize memory } := by
  intro fd
  simp only [held.maxfd.registered_resized room memory fd, held.agrees fd]
  by_cases registered : Registered l fd
  · have upper := held.maxfd.upper fd registered
    have inside := (registered_iff.mp registered).1
    rw [if_pos registered, if_pos registered, resized, if_neg (by omega), if_pos inside]
  · rw [if_neg registered, if_neg registered]

theorem Kept.step (held : Kept l) (last : ClosedLast l op) (took : l.step op = some next) :
    Kept next := by
  refine ⟨held.maxfd.step took, ?_, held.opened.step took⟩
  cases step_cases took with
  | kept => exact held.agrees
  | @created mask asked _ _ _ fd fe inside isOpen mask_eq =>
    refine held.agrees.update inside rfl rfl ?_
    rw [if_pos (mask_eq ▸ or_ne_none asked)]
  | deleted fd fe maxfd polled inside known fe_eq top told nothingNew =>
    have member := held.polled (registered_iff.mpr ⟨inside, known⟩)
    exact held.agrees.update inside rfl rfl (told (held.opened fd member) member)
  | resized setsize memory room => exact held.resize room memory
  | opened => exact held.agrees
  | closed fd isOpen =>
    have absent : l.polled fd = none := (held.agrees fd).trans (if_neg last)
    have same : Function.update l.polled fd none = l.polled := Function.update_eq_self_iff.mpr absent.symm
    intro other
    exact (congrFun same other).trans (held.agrees other)

theorem created_kept (setsize : Nat) (memory : Nat → Entry π δ) (opened : Nat → Bool) :
    Kept (aeCreateEventLoop setsize memory opened) := by
  refine ⟨created_maxfdExact setsize memory opened, fun fd => ?_, fun fd member => absurd rfl member⟩
  exact (if_neg fun registered => absurd rfl (registered_iff.mp registered).2).symm

/-- The kernel drops a descriptor that is closed while the table still has it. -/
theorem closes_disagrees (early : ¬ ClosedLast l op) (took : l.step op = some next) :
    ¬ KernelAgrees next := by
  cases op with
  | closes fd =>
    cases step_cases took with
    | kept quiet => exact absurd rfl (quiet fd)
    | closed _ isOpen =>
      intro agrees
      have polled := (Function.update_self fd none l.polled).symm.trans (agrees fd)
      exact Option.some_ne_none _ (((if_pos (not_not.mp early)).symm.trans polled.symm))
  | create | delete | resize | opens => exact absurd trivial early

/-- All through a run the kernel polls just what is registered, exactly if every descriptor is
taken out of the table before it is closed. -/
theorem kernel_agrees_iff_closed_last (setsize : Nat) (memory : Nat → Entry π δ)
    (opened : Nat → Bool) (ran : run Loop.step (aeCreateEventLoop setsize memory opened) ops = some l) :
    Always Loop.step KernelAgrees (aeCreateEventLoop setsize memory opened) ops ↔
      Along Loop.step ClosedLast (aeCreateEventLoop setsize memory opened) ops :=
  always_iff_along (created_kept setsize memory opened) (fun _ held => held.agrees)
    (fun _ _ _ held last took => held.step last took)
    (fun _ _ _ _ early took => closes_disagrees early took) ran

theorem kernel_agrees_coming_and_going :
    Always Loop.step KernelAgrees (aeCreateEventLoop 8 unwritten fun _ => false) comeAndGo := by
  have ends : (run Loop.step (aeCreateEventLoop 8 unwritten fun _ => false) comeAndGo).isSome = true := by
    decide +kernel
  obtain ⟨l, ran⟩ := Option.isSome_iff_exists.mp ends
  exact (kernel_agrees_iff_closed_last 8 unwritten _ ran).mpr (by decide +kernel)

/-! ## The loop without `maxfd` -/

/-- The `EventLoop` of the server and the client: one callback for a descriptor, no `maxfd`,
and of what is polled only whether. -/
structure Forgets {τ : Type} (l : Loop π δ) (loop : EventLoop δ τ) : Prop where
  setsize : loop.setsize = l.setsize
  mask : ∀ fd : Nat, (loop.events fd).mask = (l.events fd).mask
  clientData : ∀ fd, Registered l fd → (loop.events fd).clientData = (l.events fd).clientData
  interest : ∀ fd : Nat, (fd : Int) ∈ loop.interest ↔ l.polled fd ≠ none

/-- The same call on the smaller loop. -/
def forgetful {τ : Type} (loop : EventLoop δ τ) : Op π δ → EventLoop δ τ
  | .create fd mask _ _ clientData _ =>
    match loop.aeCreateFileEvent fd mask clientData with
    | .error _ => loop
    | .ok next => next
  | .delete fd mask => loop.aeDeleteFileEvent fd mask
  | .closes fd => loop.closed fd
  | .resize _ _ | .opens _ => loop

/-- Open descriptors are registered, the kernel has no faults of its own, and the table keeps
its size. -/
def Plain (l : Loop π δ) : Op π δ → Prop
  | .create fd _ _ _ _ fault => l.opened fd.toNat = true ∧ fault = none
  | .resize _ _ => False
  | .delete _ _ | .opens _ | .closes _ => True

instance (l : Loop π δ) : (op : Op π δ) → Decidable (Plain l op)
  | .create _ _ _ _ _ _ => inferInstanceAs (Decidable (_ ∧ _))
  | .resize _ _ => inferInstanceAs (Decidable False)
  | .delete _ _ | .opens _ | .closes _ => inferInstanceAs (Decidable True)

section Forgets

variable {τ : Type} {loop : EventLoop δ τ}

private theorem Forgets.update (forgets : Forgets l loop) {fe : Entry π δ} {event : FileEvent δ}
    (mask : event.mask = fe.mask) (data : event.clientData = fe.clientData)
    {interest : List Int} {polled : Nat → Option (BitVec 3)}
    (same : ∀ other : Nat, (other : Int) ∈ interest ↔ polled other ≠ none) (maxfd : Int) (fd : Nat) :
    Forgets { l with events := Function.update l.events fd fe, maxfd, polled }
      { loop with events := Function.update loop.events fd event, interest } := by
  have place (other : Nat) : Function.update loop.events fd event other =
      if other = fd then event else loop.events other := by
    rw [Function.update_apply]
    exact if_congr Int.natCast_inj rfl rfl
  refine ⟨forgets.setsize, fun other => ?_, fun other registered => ?_, same⟩
  · dsimp only
    rw [place, Function.update_apply]
    split
    · exact mask
    · exact forgets.mask other
  · rw [registered_update rfl rfl] at registered
    dsimp only
    rw [place, Function.update_apply]
    split
    · exact data
    · next different =>
      rw [if_neg different] at registered
      exact forgets.clientData other (registered_iff.mpr registered)

/-- What the two answers of `epoll_ctl` have in common. -/
inductive SameAnswer (l : Loop π δ) : Except Errno (Loop π δ) → Except Errno (List Int) → Prop where
  | error (errno : Errno) : SameAnswer l (.error errno) (.error errno)
  | ok (same : ∀ other : Nat, (other : Int) ∈ interest ↔ polled other ≠ none) :
      SameAnswer l (.ok { l with polled }) (.ok interest)

private theorem Forgets.epollCtl (forgets : Forgets l loop) (isOpen : l.opened fd = true)
    (op : EpollOp) (events : BitVec 3) :
    SameAnswer l (l.epollCtl op fd events none) (TcpCongestion.epollCtl loop.interest fd op) := by
  have member := forgets.interest fd
  have changed {interest : List Int} {told : Option (BitVec 3)}
      (here : (fd : Int) ∈ interest ↔ told ≠ none)
      (elsewhere : ∀ other : Int, other ≠ fd → (other ∈ interest ↔ other ∈ loop.interest)) :
      ∀ other : Nat, (other : Int) ∈ interest ↔ Function.update l.polled fd told other ≠ none := by
    intro other
    by_cases same : other = fd
    · subst same
      rw [here, Function.update_self]
    · rw [elsewhere other (mt Int.natCast_inj.mp same), Function.update_of_ne same, forgets.interest]
  cases polled : l.polled fd with
  | none =>
    have absent : (fd : Int) ∉ loop.interest := fun inside => member.mp inside polled
    cases op with
    | add =>
      simp only [Loop.epollCtl, isOpen, polled, TcpCongestion.epollCtl, absent, if_false,
        Bool.true_eq_false]
      exact .ok (changed (by simp) (by simp +contextual))
    | mod | del =>
      simp only [Loop.epollCtl, isOpen, polled, TcpCongestion.epollCtl, absent, if_false,
        Bool.true_eq_false]
      exact .error _
  | some old =>
    have present : (fd : Int) ∈ loop.interest := member.mpr (by simp [polled])
    cases op with
    | add =>
      simp only [Loop.epollCtl, isOpen, polled, TcpCongestion.epollCtl, present, if_true, if_false,
        Bool.true_eq_false]
      exact .error _
    | mod =>
      simp only [Loop.epollCtl, isOpen, polled, TcpCongestion.epollCtl, present, if_true, if_false,
        Bool.true_eq_false]
      exact .ok (changed (by simp [present]) (by simp))
    | del =>
      simp only [Loop.epollCtl, isOpen, polled, TcpCongestion.epollCtl, present, if_true, if_false,
        Bool.true_eq_false]
      exact .ok (changed (by simp) (by simp +contextual))

private theorem Forgets.create {mask : BitVec 3} {asked : mask ≠ AE_NONE} {proc : π}
    {clientData : δ} (forgets : Forgets l loop)
    (isOpen : l.opened fd.toNat = true)
    (took : l.step (.create fd mask asked proc clientData none) = some next) :
    Forgets next (forgetful loop (.create fd mask asked proc clientData none)) := by
  obtain ⟨result, created, rfl⟩ := Option.map_eq_some_iff.mp took
  rw [Loop.aeCreateFileEvent] at created
  rw [forgetful, EventLoop.aeCreateFileEvent, forgets.setsize]
  split at created
  · next beyond =>
    cases created
    rw [if_pos beyond]
    exact forgets
  · next inside =>
    rw [if_neg inside]
    split at created
    · cases created
    · next natural =>
      obtain ⟨fd, rfl⟩ := Int.eq_ofNat_of_zero_le (by omega : 0 ≤ fd)
      rw [Int.toNat_natCast] at isOpen created
      rw [Loop.aeApiAddEvent] at created
      rw [EventLoop.aeApiAddEvent, forgets.mask]
      dsimp only at created ⊢
      generalize (if (l.events fd).mask = AE_NONE then EpollOp.add else .mod) = op at created ⊢
      generalize epollEvents (mask ||| (l.events fd).mask) = events at created
      have answer := forgets.epollCtl isOpen op events
      generalize l.epollCtl op fd events none = first at answer created
      generalize TcpCongestion.epollCtl loop.interest fd op = second at answer
      cases answer with
      | error errno =>
        cases created
        exact forgets
      | ok same =>
        cases created
        exact forgets.update (congrArg (· ||| mask) (forgets.mask fd)) rfl same _ fd

/-- A descriptor that is not open is not polled, and then both calls fail. -/
theorem Forgets.unpoll (forgets : Forgets l loop)
    (sound : PolledOpen l) (fd : Nat) (delmask : BitVec 3) :
    ∃ interest polled, loop.aeApiDelEvent fd delmask = { loop with interest } ∧
      l.aeApiDelEvent fd delmask = { l with polled } ∧
      ∀ other : Nat, (other : Int) ∈ interest ↔ polled other ≠ none := by
  by_cases isOpen : l.opened fd = true
  · simp only [EventLoop.aeApiDelEvent, Loop.aeApiDelEvent, forgets.mask, ne_eq, ite_not]
    generalize (if (l.events fd).mask &&& ~~~delmask = AE_NONE then EpollOp.del else .mod) = op
    generalize epollEvents ((l.events fd).mask &&& ~~~delmask) = events
    have answer := forgets.epollCtl isOpen op events
    generalize l.epollCtl op fd events none = first at answer
    generalize TcpCongestion.epollCtl loop.interest fd op = second at answer
    cases answer with
    | error errno => exact ⟨loop.interest, l.polled, rfl, rfl, forgets.interest⟩
    | @ok interest polled same => exact ⟨interest, polled, rfl, rfl, same⟩
  · have absent : (fd : Int) ∉ loop.interest := fun member =>
      isOpen (sound fd ((forgets.interest fd).mp member))
    refine ⟨loop.interest, l.polled, ?_, ?_, forgets.interest⟩
    · rw [EventLoop.aeApiDelEvent]
      by_cases gone : (loop.events fd).mask &&& ~~~delmask = AE_NONE <;>
        simp [TcpCongestion.epollCtl, absent, gone]
    · simp [Loop.aeApiDelEvent, Loop.epollCtl, isOpen]

private theorem Forgets.delete {mask : BitVec 3} (forgets : Forgets l loop)
    (sound : PolledOpen l)
    (took : l.step (.delete fd mask) = some next) :
    Forgets next (forgetful (π := π) loop (.delete fd mask)) := by
  rw [Loop.step, Loop.aeDeleteFileEvent] at took
  rw [forgetful, EventLoop.aeDeleteFileEvent, forgets.setsize]
  split at took
  · next beyond =>
    cases took
    rw [if_pos beyond]
    exact forgets
  · next inside =>
    rw [if_neg inside]
    split at took
    · cases took
    · next natural =>
      obtain ⟨fd, rfl⟩ := Int.eq_ofNat_of_zero_le (by omega : 0 ≤ fd)
      rw [Int.toNat_natCast] at took
      rw [forgets.mask]
      split at took
      · next unknown =>
        cases took
        rw [if_pos unknown]
        exact forgets
      · next known =>
        rw [if_neg known]
        obtain ⟨interest, polled, first, second, same⟩ := forgets.unpoll sound fd (Loop.withBarrier mask)
        rw [← Loop.withBarrier]
        simp only [first]
        simp only [second] at took
        have masks := congrArg (· &&& ~~~Loop.withBarrier mask) (forgets.mask fd)
        have data := forgets.clientData fd (registered_iff.mpr ⟨by omega, known⟩)
        split at took
        · cases took
          refine forgets.update ?_ ?_ same _ fd
          exacts [masks, data]
        · cases took
          refine forgets.update ?_ ?_ same _ fd
          exacts [masks, data]

private theorem Forgets.close (forgets : Forgets l loop) (took : l.step (.closes fd) = some next) :
    Forgets next (loop.closed fd) := by
  rw [Loop.step] at took
  split at took
  · cases took
    refine ⟨forgets.setsize, forgets.mask, forgets.clientData, fun other => ?_⟩
    simp only [EventLoop.closed, List.mem_filter, decide_eq_true_eq, forgets.interest other,
      Function.update_apply]
    split
    · next same => simp [same]
    · next different =>
      have apart : (other : Int) ≠ fd := mt Int.natCast_inj.mp different
      simp [apart]
  · cases took

/-- The loop of the full table, and the one without `maxfd` beside it. -/
def bothCreate (setsize : Nat) (memory : Nat → Entry π δ) (opened : Nat → Bool) :
    Loop π δ × EventLoop δ τ :=
  (aeCreateEventLoop setsize memory opened, EventLoop.aeCreateEventLoop setsize)

def bothStep (s : Loop π δ × EventLoop δ τ) (op : Op π δ) : Option (Loop π δ × EventLoop δ τ) :=
  (s.1.step op).map fun next => (next, forgetful s.2 op)

private theorem Forgets.step (forgets : Forgets l loop) (sound : PolledOpen l) (plain : Plain l op)
    (took : l.step op = some next) : Forgets next (forgetful loop op) := by
  cases op with
  | create fd mask asked proc clientData fault =>
    obtain ⟨isOpen, rfl⟩ := plain
    exact forgets.create isOpen took
  | delete fd mask => exact forgets.delete sound took
  | resize => exact plain.elim
  | opens fd =>
    rw [Loop.step] at took
    split at took
    · cases took
    · cases took
      exact ⟨forgets.setsize, forgets.mask, forgets.clientData, forgets.interest⟩
  | closes fd => exact forgets.close took

private theorem bothCreate_forgets (setsize : Nat) (memory : Nat → Entry π δ)
    (opened : Nat → Bool) :
    Forgets (bothCreate (τ := τ) setsize memory opened).1 (bothCreate (τ := τ) setsize memory opened).2 := by
  refine ⟨rfl, fun _ => rfl, fun fd registered => ?_, fun fd => ?_⟩
  · exact absurd rfl (registered_iff.mp registered).2
  · simp [bothCreate, aeCreateEventLoop, EventLoop.aeCreateEventLoop]

/-- The smaller loop stays that of the full table, through any calls made on both. -/
theorem eventLoop_forgets {s : Loop π δ × EventLoop δ τ} (setsize : Nat) (memory : Nat → Entry π δ)
    (opened : Nat → Bool)
    (plain : Along bothStep (fun (s : Loop π δ × EventLoop δ τ) op => Plain s.1 op)
      (bothCreate setsize memory opened) ops)
    (ran : run bothStep (bothCreate setsize memory opened) ops = some s) : Forgets s.1 s.2 := by
  refine (always_of_along (P := fun s => Forgets s.1 s.2 ∧ PolledOpen s.1)
    ⟨bothCreate_forgets setsize memory opened, fun fd member => absurd rfl member⟩ ?_ plain
    ops List.prefix_rfl s ran).1
  intro mid op next held plain took
  obtain ⟨l, stepped, rfl⟩ := Option.map_eq_some_iff.mp took
  exact ⟨held.1.step held.2 plain stepped, held.2.step stepped⟩

theorem eventLoop_forgets_coming_and_going :
    ∃ s : Loop Nat Nat × EventLoop Nat Unit,
      run bothStep (bothCreate 8 unwritten fun _ => false) comeAndGo = some s ∧ Forgets s.1 s.2 := by
  have ends : (run bothStep (bothCreate (τ := Unit) 8 unwritten fun _ => false) comeAndGo).isSome = true := by
    decide +kernel
  obtain ⟨s, ran⟩ := Option.isSome_iff_exists.mp ends
  exact ⟨s, ran, eventLoop_forgets 8 unwritten _ (by decide +kernel) ran⟩

end Forgets

end TcpCongestion.FileEventProofs
