import TcpCongestion.EventStore
import TcpCongestion.MinHeap32Proofs
import TcpCongestion.Runs

/-! Whether the events in the heap, and those the calls at the heap read and write, are
still in the store. `ProcessTasks` deletes an event while it is on top of the heap and
takes it off afterwards; every other step keeps the events of the heap in the store.

`QueueInv` carries this. The events in the heap, in the hands of the call at it and in
those of the calls that wait for the lock are different from each other and in the store
(`owned`, `Owns`), and each stage of a call relies on what the one before it left
(`Ready`). `QueueInv.advances` goes through the stages one by one. -/
namespace TcpCongestion.EventLifetime

open HeapOrder Runs Words EventQueue

variable {s : EventQueue τ}

/-- The cell `min_heap_push` has counted but not written yet. -/
def unwritten (s : EventQueue τ) : Option Nat :=
  match s.atHeap with
  | some (.sift ⟨.up, hole, _⟩ _) => if hole + 1 = s.sHeap.n then some hole.toNat else none
  | _ => none

/-- Every event the heap holds at an index below its size is in the store. -/
def InStore (s : EventQueue τ) : Prop :=
  ∀ i, i < s.sHeap.n.toNat → unwritten s ≠ some i → (s.store (s.sHeap.p i)).isSome

/-- The step of the call at the heap finds every event it reads or writes in the store. -/
def Accesses (s : EventQueue τ) : QueueMove τ → Prop
  | .next allocates => ∀ stage ∈ s.atHeap, (s.advance allocates stage).isSome
  | _ => True

/-- The `delete event` of `ProcessTasks`. -/
def deletes : AtHeap τ → Bool
  | .delete _ _ _ => true
  | _ => false

def Spares (s : EventQueue τ) : QueueMove τ → Prop
  | .next _ => ∀ stage ∈ s.atHeap, deletes stage = false
  | _ => True

def pushes : AtHeap τ → Bool
  | .push _ => true
  | _ => false

/-- A push leaves fewer than 2^31 events in the heap. -/
def Small (s : EventQueue τ) : QueueMove τ → Prop
  | .next _ => ∀ stage ∈ s.atHeap, pushes stage = true → s.sHeap.n.toNat + 1 < 2 ^ 31
  | _ => True

instance (s : EventQueue τ) : Decidable (InStore s) :=
  inferInstanceAs (Decidable (∀ i, i < s.sHeap.n.toNat → unwritten s ≠ some i →
    (s.store (s.sHeap.p i)).isSome = true))

instance (s : EventQueue τ) : (move : QueueMove τ) → Decidable (Accesses s move)
  | .next allocates => inferInstanceAs
      (Decidable (∀ stage ∈ s.atHeap, (s.advance allocates stage).isSome = true))
  | .postDelayedTask _ _ _ _ | .processTasks _ | .lock _ | .run _ | .clear => isTrue trivial

instance (s : EventQueue τ) : (move : QueueMove τ) → Decidable (Spares s move)
  | .next _ => inferInstanceAs (Decidable (∀ stage ∈ s.atHeap, deletes stage = false))
  | .postDelayedTask _ _ _ _ | .processTasks _ | .lock _ | .run _ | .clear => isTrue trivial

instance (s : EventQueue τ) : (move : QueueMove τ) → Decidable (Small s move)
  | .next _ => inferInstanceAs (Decidable (∀ stage ∈ s.atHeap, pushes stage = true →
      s.sHeap.n.toNat + 1 < 2 ^ 31))
  | .postDelayedTask _ _ _ _ | .processTasks _ | .lock _ | .run _ | .clear => isTrue trivial

/-! ## Events that are owned -/

/-- The events are different from each other and in the store. -/
structure Owns (store : EventStore τ) (events : Multiset Nat) : Prop where
  distinct : events.Nodup
  stored : ∀ x ∈ events, (store x).isSome

section Owns

variable {store : EventStore τ} {events : Multiset Nat}

private theorem Owns.mono (owns : Owns store events) (fewer : left ≤ events) : Owns store left :=
  ⟨Multiset.nodup_of_le fewer owns.distinct, fun x member =>
    owns.stored x (Multiset.mem_of_le fewer member)⟩

private theorem isSome_write (written : TaskEvent (Option τ))
    (stored : x ≠ event → (store x).isSome) :
    (Function.update store event (some written) x).isSome := by
  by_cases here : x = event
  · rw [here, Function.update_self]
    rfl
  · rw [Function.update_of_ne here]
    exact stored here

private theorem Owns.new (owns : Owns store events) (free : store event = none)
    (made : TaskEvent (Option τ)) :
    Owns (Function.update store event (some made)) (event ::ₘ events) := by
  have absent : event ∉ events := by
    intro member
    have stored := owns.stored event member
    rw [free] at stored
    cases stored
  refine ⟨Multiset.nodup_cons.mpr ⟨absent, owns.distinct⟩, fun x member => ?_⟩
  exact isSome_write made fun apart =>
    owns.stored x ((Multiset.mem_cons.mp member).resolve_left apart)

/-- A write to an event leaves all events where they are. -/
theorem Owns.write (owns : Owns store events) (event : Nat) (written : TaskEvent (Option τ)) :
    Owns (Function.update store event (some written)) events :=
  ⟨owns.distinct, fun x member => isSome_write written fun _ => owns.stored x member⟩

private theorem Owns.delete (owns : Owns store (event ::ₘ events)) :
    Owns (Function.update store event none) events := by
  obtain ⟨absent, distinct⟩ := Multiset.nodup_cons.mp owns.distinct
  refine ⟨distinct, fun x member => ?_⟩
  have elsewhere : x ≠ event := fun same => absent (same ▸ member)
  rw [Function.update_of_ne elsewhere]
  exact owns.stored x (Multiset.mem_cons_of_mem member)

end Owns

/-! ## One round of a sift loop -/

section Rounds

variable {α : Type} [DecidableEq α] {elem : Element α}

/-- A round ends the loop in its hole or takes the hole to another cell. -/
structure Rounded (s : MinHeap32 α) (loop : Sift α) (cells : Cells32 α)
    (left : Option (Sift α)) : Prop where
  room : cells.a = s.a
  cells : left = none ∧ cells.p = Function.update s.p loop.hole.toNat loop.e ∨
    ∃ other : UInt32, other.toNat < s.n.toNat ∧ other.toNat ≠ loop.hole.toNat ∧
      left = some { loop with hole := other } ∧
      cells.p = Function.update s.p loop.hole.toNat (s.p other.toNat)

private theorem round_live {s : MinHeap32 α} {loop : Sift α} (room : s.n.toNat ≤ s.a.toNat)
    (inside : loop.hole.toNat < s.a.toNat) (within : loop.hole.toNat ≤ s.n.toNat)
    (small : loop.hole.toNat + 1 < 2 ^ 31) (hand : elem.live loop.e = true)
    (live : ∀ i, i < s.n.toNat → i ≠ loop.hole.toNat → elem.live (s.p i) = true) :
    ∃ cells left, loop.round elem s = some (cells, left) ∧ Rounded s loop cells left := by
  obtain ⟨ended, places, filled, same⟩ := Cells32.place_live inside hand
  have ends : Rounded s loop ended none := ⟨same, .inl ⟨rfl, filled⟩⟩
  -- the element of another cell comes into the hole
  have moves (other : UInt32) (held : other.toNat < s.n.toNat)
      (apart : other.toNat ≠ loop.hole.toNat) :
      ∃ moved, s.place elem loop.hole (s.p other.toNat) = some moved ∧
        Rounded s loop moved (some { loop with hole := other }) := by
    obtain ⟨moved, places, filled, same⟩ := Cells32.place_live inside (live _ held apart)
    exact ⟨moved, places, same, .inr ⟨other, held, apart, rfl, filled⟩⟩
  obtain ⟨direction, hole, e⟩ := loop
  dsimp only at *
  cases direction with
  | up =>
    simp only [Sift.round]
    by_cases root : hole = 0
    · rw [if_pos root, places]
      exact ⟨ended, none, rfl, ends⟩
    · have above := parent_lt (Nat.pos_of_ne_zero (mt toNat_eq_zero.mp root))
      rw [← toNat_parent root] at above
      obtain ⟨moved, fills, rounded⟩ := moves ((hole - 1) / 2) (by omega) (by omega)
      rw [if_neg root, Cells32.read_inside (by omega)]
      simp only [Option.bind_eq_bind, Option.bind_some]
      rw [Element.elemGreater_live (live _ (by omega) (by omega)) hand, Option.bind_some]
      split
      · rw [fills]
        exact ⟨moved, _, rfl, rounded⟩
      · rw [places]
        exact ⟨ended, none, rfl, ends⟩
  | down =>
    simp only [Sift.round]
    by_cases children : 2 * (hole + 1) ≤ s.n
    · obtain ⟨child, picks, deeper, held⟩ := Cells32.minChild_live room small children live
      obtain ⟨moved, fills, rounded⟩ := moves child held (by omega)
      rw [if_pos children, picks]
      simp only [Option.bind_eq_bind, Option.bind_some]
      rw [Cells32.read_inside (by omega), Option.bind_some,
        Element.elemGreater_live hand (live _ held (by omega)), Option.bind_some]
      split
      · rw [fills, Option.bind_some, if_pos (UInt32.lt_iff_toNat_lt.mpr deeper)]
        exact ⟨moved, _, rfl, rounded⟩
      · rw [places]
        exact ⟨ended, none, rfl, ends⟩
    · rw [if_neg children, places]
      exact ⟨ended, none, rfl, ends⟩

end Rounds

/-! ## The invariant -/

/-- The event a call has while it is away from the heap. -/
def heldAway : Away τ → List Nat
  | .post event => [event]
  | _ => []

/-- The event the pop that runs the loop has in its hands. -/
def handed : AfterSift τ → Multiset Nat
  | .pushed => 0
  | .popped e _ => {e}

/-- The events in the heap and in the hands of the call that is at it. -/
def heldAtHeap (heap : MinHeap32 Nat) : AtHeap τ → Multiset Nat
  | .push event => event ::ₘ heap.elements
  | .mark event => event ::ₘ heap.elements
  | .sift loop after =>
    handed after + contents heap.n.toNat (Function.update heap.p loop.hole.toNat loop.e)
  | .unmark e _ => e ::ₘ heap.elements
  | .clearDelete e => e ::ₘ heap.elements
  | _ => heap.elements

section Held

variable (heap : MinHeap32 Nat)

private theorem held_mark (event : Nat) :
    heldAtHeap heap (.mark event : AtHeap τ) = event ::ₘ heap.elements := rfl

private theorem held_sift (loop : Sift Nat) (after : AfterSift τ) :
    heldAtHeap heap (.sift loop after) =
      handed after + contents heap.n.toNat (Function.update heap.p loop.hole.toNat loop.e) := rfl

private theorem held_next (after : AfterSift τ) :
    heldAtHeap heap after.next = handed after + heap.elements := by
  cases after with
  | pushed => exact (Multiset.zero_add _).symm
  | popped e popper => exact (Multiset.singleton_add e heap.elements).symm

private theorem held_unmark (e : Nat) (popper : Popper τ) :
    heldAtHeap heap (.unmark e popper) = e ::ₘ heap.elements := rfl

private theorem held_clearDelete (e : Nat) :
    heldAtHeap heap (.clearDelete e : AtHeap τ) = e ::ₘ heap.elements := rfl

end Held

def owned (s : EventQueue τ) : Multiset Nat :=
  s.atHeap.elim s.sHeap.elements (heldAtHeap s.sHeap) + (s.away.flatMap heldAway : List Nat)

/-- A sift loop between two rounds. The hole is in the heap, but for the loop that places
what it popped into an empty one. -/
structure Sifting (s : EventQueue τ) (loop : Sift Nat) : Prop where
  within : loop.hole.toNat < s.sHeap.n.toNat ∨ s.sHeap.n.toNat = 0 ∧ loop.hole.toNat = 0
  inside : loop.hole.toNat < s.sHeap.a.toNat
  hand : (s.store loop.e).isSome
  cell : loop.hole.toNat < s.sHeap.n.toNat → unwritten s ≠ some loop.hole.toNat →
    (s.store (s.sHeap.p loop.hole.toNat)).isSome

/-- A pop is one of `Clear`: that of `ProcessTasks` comes after its `delete`. -/
def ByClear : AfterSift τ → Prop
  | .pushed => True
  | .popped e popper => popper = .clear e

/-- What the call at the heap relies on. -/
def Ready (s : EventQueue τ) : AtHeap τ → Prop
  | .mark _ => s.sHeap.n.toNat + 1 ≤ s.sHeap.a.toNat ∧ s.sHeap.n.toNat + 1 < 2 ^ 31
  | .sift loop after => Sifting s loop ∧ ByClear after
  | .unmark e popper => popper = .clear e
  | .pop popper => ∃ e, popper = .clear e ∧ 0 < s.sHeap.n.toNat ∧ s.sHeap.p 0 = e
  | .compare _ _ event => 0 < s.sHeap.n.toNat ∧ s.sHeap.p 0 = event
  | .move _ _ event => 0 < s.sHeap.n.toNat ∧ s.sHeap.p 0 = event
  | .delete _ _ event => 0 < s.sHeap.n.toNat ∧ s.sHeap.p 0 = event
  | _ => True

private theorem ByClear.ready_next (byClear : ByClear after) : Ready s after.next := by
  cases after with
  | pushed => trivial
  | popped e popper => exact byClear

/-- What holds as long as `ProcessTasks` has not deleted an event. -/
structure QueueInv (s : EventQueue τ) : Prop where
  room : s.sHeap.n.toNat ≤ s.sHeap.a.toNat
  small : s.sHeap.n.toNat < 2 ^ 31
  owns : Owns s.store (owned s)
  ready : ∀ stage, s.atHeap = some stage → Ready s stage

private theorem ctor_inv (memory : Nat → Nat) (idx : Nat → Int32) :
    QueueInv (ctor memory idx : EventQueue τ) where
  room := Nat.le_refl 0
  small := Nat.two_pow_pos 31
  owns := ⟨Multiset.nodup_zero, fun _ member => absurd member (Multiset.notMem_zero _)⟩
  ready := fun _ here => nomatch here

private theorem QueueInv.owns_at (inv : QueueInv s) (here : s.atHeap = some stage) :
    Owns s.store (heldAtHeap s.sHeap stage + (s.away.flatMap heldAway : List Nat)) := by
  have owns := inv.owns
  rw [owned, here] at owns
  exact owns

private theorem inv_at (here : s.atHeap = some stage) (room : s.sHeap.n.toNat ≤ s.sHeap.a.toNat)
    (small : s.sHeap.n.toNat < 2 ^ 31)
    (owns : Owns s.store (heldAtHeap s.sHeap stage + (s.away.flatMap heldAway : List Nat)))
    (ready : Ready s stage) : QueueInv s := by
  refine ⟨room, small, ?_, fun _ again => ?_⟩
  · rw [owned, here]
    exact owns
  · cases here.symm.trans again
    exact ready

/-- The event in the hands of the call at the heap. -/
theorem QueueInv.stored_hand (inv : QueueInv s) (here : s.atHeap = some stage)
    (hand : heldAtHeap s.sHeap stage = e ::ₘ others) : (s.store e).isSome := by
  refine (inv.owns_at here).stored e (Multiset.mem_add.mpr (.inl ?_))
  rw [hand]
  exact Multiset.mem_cons_self _ _

private theorem elements_le (heap : MinHeap32 Nat) {stage : AtHeap τ}
    (still : ∀ loop after, stage ≠ .sift loop after) : heap.elements ≤ heldAtHeap heap stage := by
  cases stage with
  | sift loop after => exact absurd rfl (still loop after)
  | push event => exact Multiset.le_cons_self _ _
  | mark event => exact Multiset.le_cons_self _ _
  | unmark e popper => exact Multiset.le_cons_self _ _
  | clearDelete e => exact Multiset.le_cons_self _ _
  | _ => exact le_refl _

/-- The events a running loop leaves where they are. -/
theorem QueueInv.stored_sift (inv : QueueInv s) (here : s.atHeap = some (.sift loop after))
    (inside : i < s.sHeap.n.toNat) (apart : i ≠ loop.hole.toNat) :
    (s.store (s.sHeap.p i)).isSome := by
  refine (inv.owns_at here).stored _ (Multiset.mem_add.mpr (.inl ?_))
  refine Multiset.mem_add.mpr (.inr (mem_contents.mpr ⟨i, inside, ?_⟩))
  exact Function.update_of_ne apart ..

/-- The events in the heap while no loop runs. -/
theorem QueueInv.stored_still (inv : QueueInv s)
    (still : ∀ loop after, s.atHeap ≠ some (.sift loop after)) (inside : i < s.sHeap.n.toNat) :
    (s.store (s.sHeap.p i)).isSome := by
  have member : s.sHeap.p i ∈ s.sHeap.elements := mem_contents.mpr ⟨i, inside, rfl⟩
  refine inv.owns.stored _ (Multiset.mem_add.mpr (.inl ?_))
  cases here : s.atHeap with
  | none => exact member
  | some stage =>
    refine Multiset.mem_of_le (elements_le s.sHeap fun loop after same => ?_) member
    exact still loop after (same ▸ here)

private theorem QueueInv.inStore (inv : QueueInv s) : InStore s := by
  intro i inside written
  by_cases sifts : ∃ loop after, s.atHeap = some (.sift loop after)
  · obtain ⟨loop, after, here⟩ := sifts
    by_cases hole : i = loop.hole.toNat
    · subst hole
      exact (inv.ready _ here).1.cell inside written
    · exact inv.stored_sift here inside hole
  · exact inv.stored_still (fun loop after here => sifts ⟨loop, after, here⟩) inside

/-! ## The steps at the heap -/

section Steps

variable {allocates : Bool}

/-- The step goes through and keeps the invariant. -/
def Goes (s : EventQueue τ) (allocates : Bool) (stage : AtHeap τ) : Prop :=
  ∃ next, s.advance allocates stage = some next ∧ QueueInv next

private theorem advance_push (inv : QueueInv s) (here : s.atHeap = some (.push event))
    (fits : s.sHeap.n.toNat + 1 < 2 ^ 31) : Goes s allocates (.push event) := by
  have owns := inv.owns_at here
  have more : (s.sHeap.n + 1).toNat = s.sHeap.n.toNat + 1 := toNat_succ (by omega)
  have reserved := s.sHeap.reserve_spec (s.sHeap.n + 1) allocates
  cases reserves : s.sHeap.reserve (s.sHeap.n + 1) allocates with
  | mk grown ret =>
    rw [reserves] at reserved
    obtain ⟨cells, size, larger, enough⟩ := reserved
    dsimp only at *
    have same : grown.elements = s.sHeap.elements := by
      rw [MinHeap32.elements, cells, size]
      rfl
    have room : grown.n.toNat ≤ grown.a.toNat := by
      rw [size]
      exact inv.room.trans (UInt32.le_iff_toNat_le.mp larger)
    have small : grown.n.toNat < 2 ^ 31 := size ▸ inv.small
    rw [Goes, advance, reserves]
    by_cases done : ret = 0
    · have grew := UInt32.le_iff_toNat_le.mp (enough done)
      rw [more, ← size] at grew
      refine ⟨_, rfl, inv_at (congrArg some (if_neg (not_not.mpr done))) room small ?_ ?_⟩
      · rw [heldAtHeap, same]
        exact owns
      · exact ⟨grew, size ▸ fits⟩
    · -- the event is in no heap and is never deleted
      refine ⟨_, rfl, inv_at (congrArg some (if_pos done)) room small (owns.mono ?_) trivial⟩
      change grown.elements + _ ≤ _
      rw [same]
      exact Multiset.add_le_add_right (Multiset.le_cons_self _ _)

private theorem advance_mark (inv : QueueInv s) (here : s.atHeap = some (.mark event)) :
    Goes s allocates (.mark event) := by
  have owns := inv.owns_at here
  obtain ⟨room, fits⟩ : s.sHeap.n.toNat + 1 ≤ s.sHeap.a.toNat ∧ s.sHeap.n.toNat + 1 < 2 ^ 31 :=
    inv.ready _ here
  have more : (s.sHeap.n + 1).toNat = s.sHeap.n.toNat + 1 := toNat_succ (by omega)
  have stored : s.store.element.live event = true :=
    inv.stored_hand here (held_mark s.sHeap event)
  obtain ⟨cells, marks, same, size⟩ := Cells32.setIdx_live s.sHeap.toCells32 stored (-1)
  rw [Goes, advance, marks]
  refine ⟨_, rfl, inv_at rfl ?_ ?_ ?_
    ⟨⟨.inl ?_, ?_, stored, fun _ written => absurd ?_ written⟩, trivial⟩⟩
  · rw [more, size]
    exact room
  · rw [more]
    exact fits
  · rw [held_sift, more, same, contents_push, handed, Multiset.zero_add]
    exact owns
  · rw [more]
    exact Nat.lt_succ_self _
  · rw [size]
    exact room
  · simp [unwritten]

private theorem advance_sift (inv : QueueInv s) (here : s.atHeap = some (.sift loop after)) :
    Goes s allocates (.sift loop after) := by
  have owns := inv.owns_at here
  have room := inv.room
  have small := inv.small
  obtain ⟨sifting, byClear⟩ := inv.ready _ here
  have within := sifting.within
  have hand : s.store.element.live loop.e = true := sifting.hand
  obtain ⟨cells, left, rounds, rounded⟩ := round_live room sifting.inside (by omega) (by omega)
    hand fun i below apart => inv.stored_sift here below apart
  have kept : s.sHeap.n.toNat ≤ cells.a.toNat := rounded.room ▸ room
  rw [Goes, advance, rounds]
  refine ⟨_, rfl, ?_⟩
  rcases rounded.cells with ⟨rfl, filled⟩ | ⟨other, held, apart, rfl, filled⟩
  · refine inv_at (s := { s with sHeap := ⟨cells, s.sHeap.n⟩, atHeap := some after.next })
      rfl kept small ?_ byClear.ready_next
    rw [held_next, MinHeap32.elements, filled]
    exact owns
  · refine inv_at (s := { s with
        sHeap := ⟨cells, s.sHeap.n⟩
        atHeap := some (.sift { loop with hole := other } after) })
      rfl kept small ?_ ⟨⟨.inl held, held.trans_le kept, hand, fun _ _ => ?_⟩, byClear⟩
    · rw [held_sift, filled, contents_move (by omega) held apart]
      exact owns
    · dsimp only
      rw [filled, Function.update_of_ne apart]
      exact inv.stored_sift here held apart

private theorem advance_unmark (inv : QueueInv s) (here : s.atHeap = some (.unmark e popper)) :
    Goes s allocates (.unmark e popper) := by
  have owns := inv.owns_at here
  obtain rfl : popper = .clear e := inv.ready _ here
  have stored : s.store.element.live e = true :=
    inv.stored_hand here (held_unmark s.sHeap e (.clear e))
  obtain ⟨cells, marks, same, size⟩ := Cells32.setIdx_live s.sHeap.toCells32 stored (-1)
  rw [Goes, advance, marks]
  refine ⟨_, rfl, inv_at rfl (by rw [size]; exact inv.room) inv.small ?_ trivial⟩
  rw [Popper.next, held_clearDelete, MinHeap32.elements, same]
  exact owns

private theorem advance_pop (inv : QueueInv s) (here : s.atHeap = some (.pop popper)) :
    Goes s allocates (.pop popper) := by
  have owns := inv.owns_at here
  have room := inv.room
  have small := inv.small
  obtain ⟨_, rfl, positive, rfl⟩ := inv.ready _ here
  have nonempty : s.sHeap.n ≠ 0 := mt toNat_eq_zero.mpr positive.ne'
  have fewer : (s.sHeap.n - 1).toNat = s.sHeap.n.toNat - 1 := toNat_pred nonempty
  have stored (i : Nat) (inside : i < s.sHeap.n.toNat) : (s.store (s.sHeap.p i)).isSome :=
    inv.stored_still (by rw [here]; nofun) inside
  have first : s.sHeap.read 0 = some (s.sHeap.p 0) :=
    Cells32.read_inside (i := 0) (positive.trans_le room)
  have last : s.sHeap.read (s.sHeap.n - 1) = some (s.sHeap.p (s.sHeap.n - 1).toNat) :=
    Cells32.read_inside (by omega)
  have split : s.sHeap.elements = s.sHeap.p 0 ::ₘ contents (s.sHeap.n.toNat - 1)
      (Function.update s.sHeap.p 0 (s.sHeap.p (s.sHeap.n.toNat - 1))) :=
    MinHeap.elements_refilled (s := s.sHeap.wide) positive
  rw [Goes, advance, if_pos nonempty, first, last]
  refine ⟨_, rfl, inv_at rfl (by dsimp only; omega) (by dsimp only; omega) ?_
    ⟨⟨?_, positive.trans_le room, stored _ (by omega), fun _ _ => stored 0 positive⟩, rfl⟩⟩
  · rw [held_sift, handed, Multiset.singleton_add, fewer]
    change Owns s.store (s.sHeap.elements + _) at owns
    rw [split] at owns
    exact owns
  · dsimp only
    rw [UInt32.toNat_zero]
    omega

private theorem advance_loop (inv : QueueInv s)
    (here : s.atHeap = some (.loop timeMs pendingTasks)) :
    Goes s allocates (.loop timeMs pendingTasks) := by
  have owns := inv.owns_at here
  rw [Goes, advance]
  rcases MinHeap32.top_cases inv.room with empty | ⟨nonempty, positive, top⟩
  · rw [if_pos empty]
    exact ⟨_, rfl, inv_at rfl inv.room inv.small owns trivial⟩
  · rw [if_neg nonempty, top]
    exact ⟨_, rfl, inv_at rfl inv.room inv.small owns ⟨positive, rfl⟩⟩

private theorem advance_clear (inv : QueueInv s) (here : s.atHeap = some .clear) :
    Goes s allocates .clear := by
  have owns := inv.owns_at here
  rw [Goes, advance]
  rcases MinHeap32.top_cases inv.room with empty | ⟨nonempty, positive, top⟩
  · rw [if_pos empty]
    exact ⟨_, rfl, inv.room, inv.small, owns, nofun⟩
  · rw [if_neg nonempty, top]
    exact ⟨_, rfl, inv_at rfl inv.room inv.small owns ⟨_, rfl, positive, rfl⟩⟩

/-- The event `ProcessTasks` looks at is on top of the heap. -/
theorem QueueInv.top_held (inv : QueueInv s)
    (still : ∀ loop after, s.atHeap ≠ some (.sift loop after))
    (top : 0 < s.sHeap.n.toNat ∧ s.sHeap.p 0 = event) : ∃ held, s.store event = some held := by
  obtain ⟨positive, rfl⟩ := top
  exact Option.isSome_iff_exists.mp (inv.stored_still still positive)

private theorem advance_compare (inv : QueueInv s)
    (here : s.atHeap = some (.compare timeMs pendingTasks event)) :
    Goes s allocates (.compare timeMs pendingTasks event) := by
  have owns := inv.owns_at here
  have top := inv.ready _ here
  obtain ⟨held, found⟩ := inv.top_held (by rw [here]; nofun) top
  rw [Goes, advance, found]
  by_cases due : held.delay ≤ timeMs
  · exact ⟨_, rfl, inv_at (congrArg some (if_pos due)) inv.room inv.small owns top⟩
  · exact ⟨_, rfl, inv_at (congrArg some (if_neg due)) inv.room inv.small owns trivial⟩

private theorem advance_move (inv : QueueInv s)
    (here : s.atHeap = some (.move timeMs pendingTasks event)) :
    Goes s allocates (.move timeMs pendingTasks event) := by
  have top := inv.ready _ here
  obtain ⟨held, found⟩ := inv.top_held (by rw [here]; nofun) top
  rw [Goes, advance, found]
  exact ⟨_, rfl, inv_at rfl inv.room inv.small ((inv.owns_at here).write event _) top⟩

private theorem advance_unlock (inv : QueueInv s) (here : s.atHeap = some (.unlock pendingTasks)) :
    Goes s allocates (.unlock pendingTasks) :=
  ⟨_, rfl, inv.room, inv.small, inv.owns_at here, nofun⟩

private theorem advance_clearDelete (inv : QueueInv s) (here : s.atHeap = some (.clearDelete e)) :
    Goes s allocates (.clearDelete e) := by
  have owns := inv.owns_at here
  rw [held_clearDelete, Multiset.cons_add] at owns
  obtain ⟨held, found⟩ := Option.isSome_iff_exists.mp
    (owns.stored e (Multiset.mem_cons_self _ _))
  rw [Goes, advance, found]
  exact ⟨_, rfl, inv_at rfl inv.room inv.small owns.delete trivial⟩

private theorem advance_delete (inv : QueueInv s)
    (here : s.atHeap = some (.delete timeMs pendingTasks event)) (allocates : Bool) :
    ∃ next, s.advance allocates (.delete timeMs pendingTasks event) = some next ∧
      ¬ InStore next := by
  have top := inv.ready _ here
  obtain ⟨held, found⟩ := inv.top_held (by rw [here]; nofun) top
  obtain ⟨positive, rfl⟩ := top
  rw [advance, found]
  refine ⟨_, rfl, fun inStore => ?_⟩
  have first := inStore 0 positive (by simp [unwritten])
  dsimp only at first
  rw [Function.update_self] at first
  cases first

/-- A step at the heap goes through, and unless it is the `delete` of `ProcessTasks` it
keeps the invariant. -/
theorem QueueInv.advances (inv : QueueInv s) (here : s.atHeap = some stage)
    (fits : ∀ event, stage = .push event → s.sHeap.n.toNat + 1 < 2 ^ 31) :
    Goes s allocates stage ∨ ∃ timeMs pendingTasks event next,
      stage = .delete timeMs pendingTasks event ∧ s.advance allocates stage = some next ∧
        ¬ InStore next := by
  cases stage with
  | push event => exact .inl (advance_push inv here (fits event rfl))
  | mark event => exact .inl (advance_mark inv here)
  | sift loop after => exact .inl (advance_sift inv here)
  | unmark e popper => exact .inl (advance_unmark inv here)
  | pop popper => exact .inl (advance_pop inv here)
  | loop timeMs pendingTasks => exact .inl (advance_loop inv here)
  | compare timeMs pendingTasks event => exact .inl (advance_compare inv here)
  | move timeMs pendingTasks event => exact .inl (advance_move inv here)
  | delete timeMs pendingTasks event =>
    obtain ⟨next, took, broken⟩ := advance_delete inv here allocates
    exact .inr ⟨timeMs, pendingTasks, event, next, rfl, took, broken⟩
  | unlock pendingTasks => exact .inl (advance_unlock inv here)
  | clear => exact .inl (advance_clear inv here)
  | clearDelete e => exact .inl (advance_clearDelete inv here)

end Steps

/-! ## Whole runs -/

private theorem QueueInv.accesses (inv : QueueInv s) (small : Small s move) : Accesses s move := by
  cases move with
  | next allocates =>
    intro stage here
    rcases inv.advances here fun event same => small stage here (same ▸ rfl) with
      ⟨next, took, -⟩ | ⟨_, _, _, next, -, took, -⟩
    · rw [took]
      rfl
    · rw [took]
      rfl
  | _ => trivial

/-- The events in the hands of the calls that are away, with those of one call apart. -/
theorem away_split {away : List (Away τ)} (found : away[call]? = some one) :
    ((away.flatMap heldAway : List Nat) : Multiset Nat) =
      (heldAway one : Multiset Nat) + ((away.eraseIdx call).flatMap heldAway : List Nat) := by
  obtain ⟨inside, rfl⟩ := List.getElem?_eq_some_iff.mp found
  have perm := (List.getElem_cons_eraseIdx_perm inside).flatMap_right heldAway
  rw [List.flatMap_cons] at perm
  rw [Multiset.coe_add]
  exact (Multiset.coe_eq_coe.mpr perm).symm

/-- What the call at the heap relies on does not change where the heap does not and no
event goes away. -/
theorem Ready.mono {next : EventQueue τ} (heap : next.sHeap = s.sHeap)
    (same : next.atHeap = s.atHeap)
    (grows : ∀ x, (s.store x).isSome → (next.store x).isSome) (ready : Ready s stage) :
    Ready next stage := by
  have sifts (loop : Sift Nat) (sifting : Sifting s loop) : Sifting next loop := by
    have counted : unwritten next = unwritten s := by rw [unwritten, unwritten, same, heap]
    refine ⟨heap ▸ sifting.within, heap ▸ sifting.inside, grows _ sifting.hand, ?_⟩
    rw [counted, heap]
    exact fun inside written => grows _ (sifting.cell inside written)
  cases stage with
  | sift loop after => exact ⟨sifts loop ready.1, ready.2⟩
  | unmark e popper => exact ready
  | push event => trivial
  | loop timeMs pendingTasks => trivial
  | unlock pendingTasks => trivial
  | clear => trivial
  | clearDelete e => trivial
  | _ =>
    unfold Ready at ready ⊢
    rw [heap]
    exact ready

private theorem QueueInv.elsewhere {next : EventQueue τ} (inv : QueueInv s)
    (heap : next.sHeap = s.sHeap) (same : next.atHeap = s.atHeap)
    (grows : ∀ x, (s.store x).isSome → (next.store x).isSome)
    (owns : Owns next.store (owned next)) : QueueInv next :=
  ⟨heap ▸ inv.room, heap ▸ inv.small, owns, fun stage here =>
    (inv.ready stage (same ▸ here)).mono heap same grows⟩

private theorem step_post (inv : QueueInv s)
    (took : step s (.postDelayedTask task now timeMs event) = some next) : QueueInv next := by
  rw [step] at took
  split_ifs at took with free
  obtain rfl := Option.some.inj took
  have owns := inv.owns.new free.2 ⟨now.value + timeMs.toUInt64, some task⟩
  rw [owned, ← Multiset.add_cons] at owns
  exact inv.elsewhere rfl rfl (fun x stored => isSome_write _ fun _ => stored) owns

private theorem step_process (inv : QueueInv s) (took : step s (.processTasks timeMs) = some next) :
    QueueInv next := by
  rw [step] at took
  split_ifs at took
  obtain rfl := Option.some.inj took
  exact inv.elsewhere rfl rfl (fun _ stored => stored) inv.owns

private theorem step_lock (inv : QueueInv s) (took : step s (.lock call) = some next) :
    QueueInv next := by
  have owns := inv.owns
  rw [step] at took
  split_ifs at took with free
  obtain ⟨stage, locks, rest⟩ := Option.bind_eq_some_iff.mp took
  obtain ⟨one, found, locked⟩ := Option.bind_eq_some_iff.mp locks
  obtain rfl := Option.some.inj rest
  rw [owned, Option.isNone_iff_eq_none.mp free, away_split found] at owns
  cases one with
  | post event =>
    obtain rfl := Option.some.inj locked
    rw [show (heldAway (.post event : Away τ) : Multiset Nat) = {event} from rfl,
      Multiset.singleton_add, Multiset.add_cons, ← Multiset.cons_add] at owns
    exact inv_at rfl inv.room inv.small owns trivial
  | process timeMs =>
    obtain rfl := Option.some.inj locked
    rw [show (heldAway (.process timeMs : Away τ) : Multiset Nat) = 0 from rfl,
      Multiset.zero_add] at owns
    exact inv_at rfl inv.room inv.small owns trivial
  | run pendingTasks => cases locked

private theorem step_run (inv : QueueInv s) (took : step s (.run call) = some next) :
    QueueInv next := by
  have owns := inv.owns
  obtain ⟨left, runs, rest⟩ := Option.bind_eq_some_iff.mp took
  obtain ⟨one, found, ran⟩ := Option.bind_eq_some_iff.mp runs
  obtain rfl := Option.some.inj rest
  rw [owned, away_split found] at owns
  refine inv.elsewhere rfl rfl (fun _ stored => stored) ?_
  unfold Away.afterRun at ran
  split at ran
  · obtain rfl := Option.some.inj ran
    rw [show (heldAway (.run _ : Away τ) : Multiset Nat) = 0 from rfl,
      Multiset.zero_add] at owns
    exact owns
  · cases ran

private theorem step_clear (inv : QueueInv s) (took : step s .clear = some next) :
    QueueInv next := by
  have owns := inv.owns
  rw [step] at took
  split_ifs at took with alone
  obtain rfl := Option.some.inj took
  rw [owned, Option.isNone_iff_eq_none.mp alone.2.1] at owns
  exact inv_at rfl inv.room inv.small owns trivial

private theorem QueueInv.step (inv : QueueInv s) (small : Small s move) (spares : Spares s move)
    (took : EventQueue.step s move = some next) : QueueInv next := by
  cases move with
  | postDelayedTask task now timeMs event => exact step_post inv took
  | processTasks timeMs => exact step_process inv took
  | lock call => exact step_lock inv took
  | run call => exact step_run inv took
  | clear => exact step_clear inv took
  | next allocates =>
    obtain ⟨stage, here, took⟩ := Option.bind_eq_some_iff.mp took
    rcases inv.advances here fun event same => small stage here (same ▸ rfl) with
      ⟨other, goes, kept⟩ | ⟨timeMs, pendingTasks, event, _, rfl, -, -⟩
    · cases took.symm.trans goes
      exact kept
    · exact absurd (spares _ here) (by simp [deletes])

/-- The `delete event` of `ProcessTasks` can be made and leaves the event on the heap. -/
theorem QueueInv.broken (inv : QueueInv s) (bad : ¬ Spares s move) :
    ∃ next, EventQueue.step s move = some next ∧ ¬ InStore next := by
  cases move with
  | next allocates =>
    simp only [Spares, not_forall] at bad
    obtain ⟨stage, here, bad⟩ := bad
    cases stage with
    | delete timeMs pendingTasks event =>
      obtain ⟨next, took, broken⟩ := advance_delete inv here allocates
      exact ⟨next, by rw [EventQueue.step, Option.mem_def.mp here]; exact took, broken⟩
    | _ => exact absurd rfl bad
  | _ => exact absurd trivial bad

/-- The events of the heap, and all that the calls at it read and write, stay in the store
in exactly those runs in which `ProcessTasks` does not delete an event: it deletes the
one it has found due while that one is still on top of the heap. The `pop` that follows
writes to it. -/
theorem events_stored_iff (memory : Nat → Nat) (idx : Nat → Int32) (moves : List (QueueMove τ))
    (small : Along step Small (ctor memory idx) moves) :
    (Always step InStore (ctor memory idx) moves ∧ Along step Accesses (ctor memory idx) moves) ↔
      Along step Spares (ctor memory idx) moves := by
  have initial := ctor_inv (τ := τ) memory idx
  constructor
  · rintro ⟨always, -⟩
    exact along_of_always initial (fun _ _ _ inv small spares took => inv.step small spares took)
      (fun _ _ inv bad => inv.broken bad) small always
  · intro spares
    have always : Always step QueueInv (ctor memory idx) moves := always_of_along initial
      (fun _ _ _ inv good took => inv.step good.1 good.2 took) (along_and small spares)
    refine ⟨fun before part mid reached => (always before part mid reached).inStore, ?_⟩
    exact along_of_always_inv (fun _ _ inv small => inv.accesses small) always small

/-- A clock that reads 10 ms. -/
def tenMs : Reading := .early 10

/-- A task posted for 15 ms, `ProcessTasks` at 10 ms, a second task, and the destructor. -/
def quietMoves : List (QueueMove Nat) :=
  List.flatten [
    .postDelayedTask 1 tenMs 5 3 :: .lock 0 :: List.replicate 4 (.next true),
    .processTasks tenMs :: .lock 0 :: List.replicate 3 (.next true),
    .postDelayedTask 2 tenMs 2 6 :: .lock 0 :: List.replicate 5 (.next true),
    .clear :: List.replicate 11 (.next true)]

theorem quietMoves_stored :
    (run step (ctor (fun _ => 0) fun _ => 0) quietMoves).isSome ∧
      Always step InStore (ctor (fun _ => 0) fun _ => 0) quietMoves ∧
      Along step Accesses (ctor (fun _ => 0) fun _ => 0) quietMoves := by
  have small : Along step Small (ctor (fun _ => 0) fun _ => 0) quietMoves := by decide +kernel
  have spares : Along step Spares (ctor (fun _ => 0) fun _ => 0) quietMoves := by decide +kernel
  exact ⟨by decide +kernel, (events_stored_iff _ _ quietMoves small).mpr spares⟩

/-- A task posted at 10 ms and a `ProcessTasks` that finds it due, up to its `delete`. -/
def dueMoves : List (QueueMove Nat) :=
  List.flatten [
    .postDelayedTask 1 tenMs 0 3 :: .lock 0 :: List.replicate 4 (.next true),
    .processTasks tenMs :: .lock 0 :: List.replicate 4 (.next true)]

/-- The event is deleted at index 0 of the heap, and the `pop` after it writes to it. -/
theorem dueMoves_destroyed :
    ¬ Always step InStore (ctor (fun _ => 0) fun _ => 0) dueMoves ∧
      ¬ Along step Accesses (ctor (fun _ => 0) fun _ => 0)
        (dueMoves ++ List.replicate 2 (.next true)) := by
  constructor
  · intro always
    have reached : (run step (ctor (fun _ => 0) fun _ => 0) dueMoves).any
        (fun s => decide (¬ InStore s)) = true := by decide +kernel
    obtain ⟨s, ran, broken⟩ := Option.any_eq_true _ _ |>.mp reached
    exact of_decide_eq_true broken (always dueMoves List.prefix_rfl s ran)
  · decide +kernel

end TcpCongestion.EventLifetime
