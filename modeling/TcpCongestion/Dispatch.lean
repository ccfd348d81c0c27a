import Mathlib.Data.List.Forall2
import TcpCongestion.FileEventProofs

/-! `aeProcessEvents`, where it calls back for the descriptors `epoll_wait` reported. The table
is read anew before every call, since a callback may change it: register descriptors, delete
them, close them. What a callback may do for the rest of the report to stay true is `Minds`, and
then every reported descriptor is served as it was registered when the report was made. -/
namespace TcpCongestion.Dispatch
open FileEvents FileEventProofs Runs

inductive Direction where
  | readable
  | writable
  deriving DecidableEq, Repr

/-- An `aeFiredEvent`. -/
structure Fired where
  fd : Nat
  mask : BitVec 3
  deriving DecidableEq, Repr

/-- A callback, with its arguments. -/
structure Called (π δ : Type) where
  direction : Direction
  proc : π
  fd : Nat
  clientData : Option δ
  mask : BitVec 3
  deriving DecidableEq, Repr

/-- A callback that was made, with the state it was made in. -/
structure Made (σ π δ : Type) where
  before : σ
  call : Called π δ

variable {π δ σ : Type}

def bit : Direction → BitVec 3
  | .readable => AE_READABLE
  | .writable => AE_WRITABLE

/-- `fe->mask & mask & AE_READABLE`, or `AE_WRITABLE`. -/
def due (fe : Entry π δ) (ev : Fired) (direction : Direction) : Bool :=
  fe.mask &&& ev.mask &&& bit direction ≠ 0

def invert (fe : Entry π δ) : Bool := fe.mask &&& AE_BARRIER ≠ 0

/-- The call the entry asks for; `none` is a pointer that was never written. -/
def callOf (fe : Entry π δ) (ev : Fired) (direction : Direction) : Option (Called π δ) :=
  let proc := match direction with
    | .readable => fe.rfileProc
    | .writable => fe.wfileProc
  proc.map fun proc => ⟨direction, proc, ev.fd, fe.clientData, ev.mask⟩

section
variable [DecidableEq π] (entry : σ → Nat → Entry π δ) (call : Called π δ → σ → Option σ)

/-- One of the conditional calls, after those already made for the descriptor. -/
def attempt (direction : Direction) (allowed : Bool) (ev : Fired) (x : σ × List (Made σ π δ)) :
    Option (σ × List (Made σ π δ)) :=
  let fe := entry x.1 ev.fd
  if allowed && due fe ev direction then
    (callOf fe ev direction).bind fun c => (call c x.1).map fun s => (s, x.2 ++ [⟨x.1, c⟩])
  else some x

/-- `!fired || fe->wfileProc != fe->rfileProc`. -/
def again (ev : Fired) (x : σ × List (Made σ π δ)) : Bool :=
  x.2.isEmpty || decide ((entry x.1 ev.fd).wfileProc ≠ (entry x.1 ev.fd).rfileProc)

/-- The body of the loop over `fired`, and the calls it makes. -/
def fire (s : σ) (ev : Fired) : Option (σ × List (Made σ π δ)) :=
  let inverted := invert (entry s ev.fd)
  (attempt entry call .readable (!inverted) ev (s, [])).bind fun x =>
    (attempt entry call .writable (again entry ev x) ev x).bind fun x =>
      attempt entry call .readable (inverted && again entry ev x) ev x

def processFired (s : σ) : List Fired → Option (σ × List (List (Made σ π δ)))
  | [] => some (s, [])
  | ev :: rest =>
    (fire entry call s ev).bind fun x =>
      (processFired x.1 rest).map fun y => (y.1, x.2 :: y.2)

end

/-! ## One descriptor -/

/-- The first call an entry asks for: the reader's, but with a barrier the writer's. -/
def firstCall (fe : Entry π δ) (ev : Fired) : Option (Called π δ) :=
  let order := if invert fe then [Direction.writable, .readable] else [.readable, .writable]
  (order.find? (due fe ev)).bind (callOf fe ev)

/-- The entry asks for this call. -/
def Asks (fe : Entry π δ) (c : Called π δ) : Prop :=
  due fe ⟨c.fd, c.mask⟩ c.direction = true ∧ callOf fe ⟨c.fd, c.mask⟩ c.direction = some c

/-- The descriptor was served as the entry has it: the call that comes first was made, then
at most the one in the other direction, each as the table has it when it is made. -/
structure Delivered (entry : σ → Nat → Entry π δ) (fe : Entry π δ) (ev : Fired)
    (calls : List (Made σ π δ)) : Prop where
  first : (calls.map Made.call).head? = firstCall fe ev
  once : (calls.map (·.call.direction)).Nodup
  here : ∀ made ∈ calls, made.call.fd = ev.fd ∧ made.call.mask = ev.mask
  asked : ∀ made ∈ calls, Asks (entry made.before ev.fd) made.call

/-- The calls lead from one state to the other, each made where the one before has left off. -/
def Leads (call : Called π δ → σ → Option σ) : σ → List (Made σ π δ) → σ → Prop
  | s, [], last => s = last
  | s, made :: rest, last =>
    made.before = s ∧ ∃ mid, call made.call s = some mid ∧ Leads call mid rest last

private theorem leads_append {call : Called π δ → σ → Option σ} {s last : σ}
    {first second : List (Made σ π δ)} :
    Leads call s (first ++ second) last ↔
      ∃ mid, Leads call s first mid ∧ Leads call mid second last := by
  induction first generalizing s with
  | nil => exact ⟨fun leads => ⟨s, rfl, leads⟩, by rintro ⟨_, rfl, leads⟩; exact leads⟩
  | cons made rest ih =>
    simp only [List.cons_append, Leads, ih]
    constructor
    · rintro ⟨here, mid, took, between, before, after⟩
      exact ⟨between, ⟨here, mid, took, before⟩, after⟩
    · rintro ⟨between, ⟨here, mid, took, before⟩, after⟩
      exact ⟨here, mid, took, between, before, after⟩

/-- What the callbacks keep: an invariant, and the entries of the other descriptors that are
safe. A callback may give up its own, and then nothing in the other direction is due any more.
`Spares` is whatever else a call does for a descriptor that stays safe. -/
structure Minds (entry : σ → Nat → Entry π δ) (call : Called π δ → σ → Option σ)
    (Inv : σ → Prop) (Safe : σ → Nat → Prop) (Spares : Made σ π δ → Nat → Prop) : Prop where
  inv : ∀ s c next, Inv s → Safe s c.fd → Asks (entry s c.fd) c → call c s = some next → Inv next
  others : ∀ s c next, Inv s → Safe s c.fd → Asks (entry s c.fd) c → call c s = some next →
    ∀ fd, fd ≠ c.fd → Safe s fd → Safe next fd ∧ entry next fd = entry s fd ∧ Spares ⟨s, c⟩ fd
  own : ∀ s c next, Inv s → Safe s c.fd → Asks (entry s c.fd) c → call c s = some next →
    (Safe next c.fd ∧ Spares ⟨s, c⟩ c.fd) ∨ ∀ direction, direction ≠ c.direction →
      due (entry next c.fd) ⟨c.fd, c.mask⟩ direction = false

section
variable {entry : σ → Nat → Entry π δ} {call : Called π δ → σ → Option σ} {Inv : σ → Prop}
  {Safe : σ → Nat → Prop} {Spares : Made σ π δ → Nat → Prop} {ev : Fired}
  {x y : σ × List (Made σ π δ)}

private theorem callOf_args (asked : callOf fe ev direction = some c) :
    c.direction = direction ∧ c.fd = ev.fd ∧ c.mask = ev.mask := by
  obtain ⟨proc, _, rfl⟩ := Option.map_eq_some_iff.mp asked
  exact ⟨rfl, rfl, rfl⟩

/-- What one of the conditional calls does. -/
theorem attempt_cases (took : attempt entry call direction allowed ev x = some y) :
    (y = x ∧ (allowed && due (entry x.1 ev.fd) ev direction) = false) ∨
      allowed = true ∧ ∃ c, due (entry x.1 ev.fd) ev direction = true ∧
        callOf (entry x.1 ev.fd) ev direction = some c ∧ call c x.1 = some y.1 ∧
        y.2 = x.2 ++ [⟨x.1, c⟩] := by
  unfold attempt at took
  dsimp only at took
  split at took
  · next both =>
    obtain ⟨c, asked, made⟩ := Option.bind_eq_some_iff.mp took
    obtain ⟨s, done, rfl⟩ := Option.map_eq_some_iff.mp made
    obtain ⟨may, now⟩ := Bool.and_eq_true_iff.mp both
    exact .inr ⟨may, c, now, asked, done, rfl⟩
  · next neither =>
    cases took
    exact .inl ⟨rfl, by simpa using neither⟩

/-- Where the calls for a descriptor have come to, from state `s`. -/
structure Served (entry : σ → Nat → Entry π δ) (call : Called π δ → σ → Option σ)
    (Inv : σ → Prop) (Safe : σ → Nat → Prop) (Spares : Made σ π δ → Nat → Prop) (s : σ)
    (ev : Fired) (x : σ × List (Made σ π δ)) : Prop where
  inv : Inv x.1
  leads : Leads call s x.2 x.1
  others : ∀ fd, fd ≠ ev.fd → Safe s fd →
    Safe x.1 fd ∧ entry x.1 fd = entry s fd ∧ ∀ made ∈ x.2, Spares made fd
  here : ∀ made ∈ x.2, made.call.fd = ev.fd ∧ made.call.mask = ev.mask
  asked : ∀ made ∈ x.2, Inv made.before ∧ Safe made.before ev.fd ∧
    Asks (entry made.before ev.fd) made.call
  once : (x.2.map (·.call.direction)).Nodup
  spared : x.2.Pairwise fun made _ => Spares made ev.fd
  own : (Safe x.1 ev.fd ∧ ∀ made ∈ x.2, Spares made ev.fd) ∨
    ∀ direction, direction ∉ x.2.map (·.call.direction) →
      due (entry x.1 ev.fd) ev direction = false

private theorem Served.attempt (minds : Minds entry call Inv Safe Spares)
    (served : Served entry call Inv Safe Spares s ev x)
    (unserved : direction ∉ x.2.map (·.call.direction))
    (took : attempt entry call direction allowed ev x = some y) :
    Served entry call Inv Safe Spares s ev y := by
  obtain ⟨rfl, _⟩ | ⟨_, c, now, asked, done, calls⟩ := attempt_cases took
  · exact served
  obtain ⟨towards, fd, mask⟩ := callOf_args asked
  have same : (⟨c.fd, c.mask⟩ : Fired) = ev := by rw [fd, mask]
  obtain ⟨safe, spares⟩ : Safe x.1 ev.fd ∧ ∀ made ∈ x.2, Spares made ev.fd := by
    refine served.own.resolve_right fun none => ?_
    rw [none direction unserved] at now
    exact Bool.false_ne_true now
  have asks : Asks (entry x.1 ev.fd) c := by
    rw [Asks, same, towards]
    exact ⟨now, asked⟩
  have own := minds.own x.1 c y.1 served.inv (fd ▸ safe) (fd ▸ asks) done
  have others := minds.others x.1 c y.1 served.inv (fd ▸ safe) (fd ▸ asks) done
  have every {P : Made σ π δ → Prop} (before : ∀ made ∈ x.2, P made) (last : P ⟨x.1, c⟩) :
      ∀ made ∈ y.2, P made := by
    rw [calls]
    intro made member
    obtain old | new := List.mem_append.mp member
    · exact before made old
    · exact List.mem_singleton.mp new ▸ last
  refine ⟨minds.inv x.1 c y.1 served.inv (fd ▸ safe) (fd ▸ asks) done, ?_, ?_, ?_, ?_, ?_, ?_, ?_⟩
  · rw [calls]
    exact leads_append.mpr ⟨x.1, served.leads, rfl, y.1, done, rfl⟩
  · intro other different before
    obtain ⟨still, kept, spared⟩ := served.others other different before
    obtain ⟨yet, again, sparing⟩ := others other (fd ▸ different) still
    exact ⟨yet, again.trans kept, every spared sparing⟩
  · exact every served.here ⟨fd, mask⟩
  · exact every served.asked ⟨served.inv, safe, asks⟩
  · rw [calls, List.map_append, List.nodup_append]
    refine ⟨served.once, by simp, ?_⟩
    rintro one old two new rfl
    rw [List.map_singleton, List.mem_singleton, towards] at new
    exact unserved (new ▸ old)
  · rw [calls, List.pairwise_append]
    exact ⟨served.spared, List.pairwise_singleton _ _, fun made member _ _ => spares made member⟩
  · rw [same, fd] at own
    refine own.imp (fun both => ⟨both.1, every spares both.2⟩) fun none other absent =>
      none other fun towards => absent ?_
    rw [calls, towards]
    simp

/-- An attempt that is not allowed. -/
theorem attempt_barred (took : attempt entry call direction false ev x = some y) : y = x := by
  obtain ⟨same, _⟩ | ⟨impossible, _⟩ := attempt_cases took
  · exact same
  · exact absurd impossible Bool.false_ne_true

/-- The first attempt that is allowed: the call is that of the entry as it is. -/
theorem attempt_first (took : attempt entry call direction true ev (s, []) = some y) :
    (y = (s, []) ∧ due (entry s ev.fd) ev direction = false) ∨
      ∃ c, due (entry s ev.fd) ev direction = true ∧ callOf (entry s ev.fd) ev direction = some c ∧
        y.2 = [⟨s, c⟩] := by
  obtain ⟨same, none⟩ | ⟨_, c, now, asked, _, calls⟩ := attempt_cases took
  · exact .inl ⟨same, by simpa using none⟩
  · exact .inr ⟨c, now, asked, calls⟩

/-- A later attempt leaves the first call where it is. -/
theorem attempt_head (took : attempt entry call direction allowed ev x = some y)
    (first : x.2 = made :: rest) : (y.2.map Made.call).head? = some made.call := by
  obtain ⟨rfl, _⟩ | ⟨_, _, _, _, _, calls⟩ := attempt_cases took
  · rw [first]
    rfl
  · rw [calls, first]
    rfl

/-- An attempt in each direction. The second is barred only by a call that the first has made. -/
theorem attempts_served (minds : Minds entry call Inv Safe Spares)
    (served : Served entry call Inv Safe Spares s ev (s, [])) (apart : second ≠ first)
    (one : attempt entry call first true ev (s, []) = some x)
    (two : attempt entry call second allowed ev x = some y) (may : x.2 = [] → allowed = true) :
    Served entry call Inv Safe Spares s ev y ∧ (y.2.map Made.call).head? =
      ([first, second].find? (due (entry s ev.fd) ev)).bind (callOf (entry s ev.fd) ev) := by
  have servedOne := served.attempt minds (by simp) one
  obtain ⟨rfl, idle⟩ | ⟨c, now, asked, calls⟩ := attempt_first one
  · rw [may rfl] at two
    refine ⟨servedOne.attempt minds (by simp) two, ?_⟩
    obtain ⟨rfl, none⟩ | ⟨c, now, asked, calls⟩ := attempt_first two
    · simp [idle, none]
    · simp [idle, now, asked, calls]
  · have towards := (callOf_args asked).1
    refine ⟨servedOne.attempt minds (by simpa [calls, towards] using apart) two, ?_⟩
    rw [attempt_head two calls]
    simp [now, asked]

section
variable [DecidableEq π]

/-- The body of the loop serves its descriptor as it finds it, and leaves the others be. -/
theorem fire_served (minds : Minds entry call Inv Safe Spares) (inv : Inv s)
    (safe : Safe s ev.fd) (fired : fire entry call s ev = some x) :
    Served entry call Inv Safe Spares s ev x ∧ Delivered entry (entry s ev.fd) ev x.2 := by
  have begun : Served entry call Inv Safe Spares s ev (s, []) :=
    ⟨inv, rfl, fun _ _ before => ⟨before, rfl, nofun⟩, nofun, nofun, List.nodup_nil, .nil,
      .inl ⟨safe, nofun⟩⟩
  have both : Served entry call Inv Safe Spares s ev x ∧
      (x.2.map Made.call).head? = firstCall (entry s ev.fd) ev := by
    obtain ⟨one, first, rest⟩ := Option.bind_eq_some_iff.mp fired
    obtain ⟨two, second, third⟩ := Option.bind_eq_some_iff.mp rest
    have may (y : σ × List (Made σ π δ)) (none : y.2 = []) : again entry ev y = true := by
      rw [again, none]
      rfl
    rw [firstCall]
    cases turned : invert (entry s ev.fd) with
    | false =>
      rw [turned] at first third
      rw [attempt_barred third]
      exact attempts_served minds begun (by decide) first second (may one)
    | true =>
      rw [turned] at first third
      obtain rfl := attempt_barred first
      exact attempts_served minds begun (by decide) second third (may two)
  exact ⟨both.1, both.2, both.1.once, both.1.here, fun made member => (both.1.asked made member).2.2⟩

/-! ## The whole report -/

private theorem forall₂_mem_right {R : α → β → Prop} {b : β} (all : List.Forall₂ R xs ys)
    (member : b ∈ ys) : ∃ a ∈ xs, R a b := by
  induction all with
  | nil => cases member
  | cons here _ ih =>
    obtain rfl | later := List.mem_cons.mp member
    · exact ⟨_, List.mem_cons_self, here⟩
    · obtain ⟨a, among, related⟩ := ih later
      exact ⟨a, List.mem_cons_of_mem _ among, related⟩

/-- Every descriptor of the report is served as it was registered when the report was made,
whatever the callbacks before it did, and is spared by them. -/
theorem processFired_delivers {registered : Nat → Entry π δ}
    (minds : Minds entry call Inv Safe Spares) (inv : Inv s)
    (distinct : (fired.map Fired.fd).Nodup)
    (safe : ∀ ev ∈ fired, Safe s ev.fd ∧ entry s ev.fd = registered ev.fd)
    (processed : processFired entry call s fired = some (next, calls)) :
    Inv next ∧ Leads call s calls.flatten next ∧
      List.Forall₂ (fun ev served => Delivered entry (registered ev.fd) ev served ∧
        (∃ begun ended, entry begun ev.fd = registered ev.fd ∧ Leads call begun served ended) ∧
        ∀ made ∈ served, Inv made.before ∧ Safe made.before ev.fd) fired calls ∧
      calls.flatten.Pairwise fun earlier later => Spares earlier later.call.fd := by
  induction fired generalizing s calls with
  | nil =>
    cases processed
    exact ⟨inv, rfl, .nil, .nil⟩
  | cons ev rest ih =>
    obtain ⟨x, fired, onward⟩ := Option.bind_eq_some_iff.mp processed
    obtain ⟨⟨last, later⟩, ran, same⟩ := Option.map_eq_some_iff.mp onward
    cases same
    obtain ⟨here, found⟩ := safe ev List.mem_cons_self
    obtain ⟨served, delivered⟩ := fire_served minds inv here fired
    obtain ⟨absent, distinct⟩ := List.nodup_cons.mp distinct
    have kept (other : Fired) (member : other ∈ rest) :
        Safe x.1 other.fd ∧ entry x.1 other.fd = registered other.fd ∧
          ∀ made ∈ x.2, Spares made other.fd := by
      obtain ⟨before, found⟩ := safe other (List.mem_cons_of_mem ev member)
      have different : other.fd ≠ ev.fd := fun same => absent (same ▸ List.mem_map_of_mem member)
      obtain ⟨still, same, spared⟩ := served.others other.fd different before
      exact ⟨still, same.trans found, spared⟩
    obtain ⟨inv, leads, delivers, spared⟩ := ih served.inv distinct
      (fun other member => ⟨(kept other member).1, (kept other member).2.1⟩) ran
    refine ⟨inv, leads_append.mpr ⟨x.1, served.leads, leads⟩, .cons ⟨found ▸ delivered,
      ⟨s, x.1, found, served.leads⟩, fun made member =>
        ⟨(served.asked made member).1, (served.asked made member).2.1⟩⟩ delivers, ?_⟩
    rw [List.flatten_cons, List.pairwise_append]
    refine ⟨?_, spared, fun made member made' after => ?_⟩
    · refine served.spared.imp_of_mem fun _ member spares => ?_
      rw [(served.here _ member).1]
      exact spares
    · -- a later call is for a descriptor of the rest of the report
      obtain ⟨group, among, called⟩ := List.mem_flatten.mp after
      obtain ⟨other, listed, both⟩ := forall₂_mem_right delivers among
      rw [(both.1.here made' called).1]
      exact (kept other listed).2.2 made member

end

end

/-! ## Callbacks that call the loop -/

/-- What a callback does to the loop: calls, by its own lights. -/
abbrev Program (π δ : Type) := Called π δ → Loop π δ → List (Op π δ)

def perform (program : Program π δ) (c : Called π δ) (l : Loop π δ) : Option (Loop π δ) :=
  run Loop.step l (program c l)

/-- The entry has lost at most bits of its mask. -/
def Reduced (left fe : Entry π δ) : Prop :=
  left = { fe with mask := left.mask } ∧ left.mask &&& fe.mask = left.mask

private theorem Reduced.refl (fe : Entry π δ) : Reduced fe fe := ⟨rfl, BitVec.and_self⟩

private theorem Reduced.trans {first second third : Entry π δ} (one : Reduced first second)
    (two : Reduced second third) : Reduced first third := by
  obtain ⟨same, bits⟩ := one
  obtain ⟨same', bits'⟩ := two
  constructor
  · rw [same, same']
  · rw [← bits, BitVec.and_assoc, bits']

private theorem Reduced.asks {left fe : Entry π δ} (reduced : Reduced left fe)
    (asks : Asks left c) : Asks fe c := by
  obtain ⟨same, bits⟩ := reduced
  obtain ⟨due, asked⟩ := asks
  constructor
  · have some := of_decide_eq_true due
    refine decide_eq_true fun none => some ?_
    rw [← bits, BitVec.and_assoc left.mask, BitVec.and_assoc left.mask, none]
    exact BitVec.and_zero
  · rw [same] at asked
    exact asked

end TcpCongestion.Dispatch
