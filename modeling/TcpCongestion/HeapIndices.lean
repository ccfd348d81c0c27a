import TcpCongestion.MinHeapProofs

/-! Every element in the heap has its own place in `min_heap_idx`, and one that was taken
out has -1. Both sift loops carry one element over the array: a step fills the hole from
another cell, which is the hole from then on. -/
namespace TcpCongestion

open HeapOrder

variable {α : Type} {elem : Element α}

namespace Cells

variable {s : Cells α}

/-- The elements of the first `n` cells have their places. -/
def Indexed (n : Nat) (s : Cells α) : Prop := ∀ i, i < n → s.idx (s.p i) = i

/-- The elements off the hole have their places, and `e` is none of them. -/
structure IndexedExcept (n hole : Nat) (e : α) (s : Cells α) : Prop where
  recorded : ∀ i, i < n → i ≠ hole → s.idx (s.p i) = i
  apart : ∀ i, i < n → i ≠ hole → s.p i ≠ e

/-- Elements that have their places are different from each other. -/
theorem Indexed.nodup (indexed : s.Indexed n) : (contents n s.p).Nodup := by
  refine Multiset.Nodup.map_on (fun i within j inside same => ?_) (Multiset.nodup_range n)
  have first := indexed i (Multiset.mem_range.mp within)
  have second := indexed j (Multiset.mem_range.mp inside)
  rw [same, second] at first
  exact (Int.natCast_inj.mp first).symm

/-- The last element in hand and the place of another open. -/
theorem Indexed.except_last (indexed : s.Indexed n) (hole : Nat) :
    s.IndexedExcept (n - 1) hole (s.p (n - 1)) := by
  refine ⟨fun i within _ => indexed i (by omega), fun i within _ same => ?_⟩
  have first := indexed i (by omega)
  rw [same, indexed (n - 1) (by omega)] at first
  omega

private theorem read_eq_some (reads : s.read i = some x) : s.p i = x := by
  rw [read] at reads
  split_ifs at reads
  exact Option.some.inj reads

variable [DecidableEq α]

private theorem setIdx_eq_some (marks : s.setIdx elem e position = some result) :
    result = { s with idx := Function.update s.idx e position } := by
  rw [setIdx] at marks
  split_ifs at marks
  exact (Option.some.inj marks).symm

private theorem place_eq_some (places : s.place elem i e = some result) :
    result = s.placed i e := by
  rw [place] at places
  split_ifs at places
  exact setIdx_eq_some places

@[simp] theorem placed_p_self (s : Cells α) (i : Nat) (e : α) : (s.placed i e).p i = e :=
  Function.update_self ..

@[simp] theorem placed_idx_self (s : Cells α) (i : Nat) (e : α) : (s.placed i e).idx e = i :=
  Function.update_self ..

private theorem placed_p_of_ne (other : j ≠ i) : (s.placed i e).p j = s.p j :=
  Function.update_of_ne other ..

private theorem placed_idx_of_ne (other : x ≠ e) : (s.placed i e).idx x = s.idx x :=
  Function.update_of_ne other ..

/-- The ways of carrying `e` over the first `n` cells from a hole. -/
inductive Carried (n : Nat) (e : α) : Cells α → Nat → Cells α → Prop
  | stop (s : Cells α) (hole : Nat) : Carried n e s hole (s.placed hole e)
  | move {s result : Cells α} {hole other : Nat} (inside : other < n) (different : other ≠ hole)
      (onward : Carried n e (s.placed hole (s.p other)) other result) : Carried n e s hole result

private theorem shiftUp_carried (inside : hole < n)
    (returns : s.shiftUp elem hole e = some result) : Carried n e s hole result := by
  induction hole using Nat.strong_induction_on generalizing s with
  | _ hole ih =>
    rw [shiftUp] at returns
    split at returns
    · rw [place_eq_some returns]
      exact .stop s hole
    · rename_i below
      have above := parent_lt (Nat.pos_of_ne_zero below)
      simp only [Option.bind_eq_bind, Option.bind_eq_some_iff] at returns
      obtain ⟨_, reads, greater, -, returns⟩ := returns
      obtain rfl := read_eq_some reads
      split at returns
      · obtain ⟨moved, places, onward⟩ := Option.bind_eq_some_iff.mp returns
        rw [place_eq_some places] at onward
        exact .move (above.trans inside) above.ne (ih _ above (above.trans inside) onward)
      · rw [place_eq_some returns]
        exact .stop s hole

private theorem shiftDown_carried (returns : s.shiftDown elem n hole e = some result) :
    Carried n e s hole result := by
  induction distance : n - hole using Nat.strong_induction_on generalizing s hole with
  | _ _ ih =>
    rw [shiftDown] at returns
    split at returns
    · simp only [Option.bind_eq_bind, Option.bind_eq_some_iff] at returns
      obtain ⟨⟨child, deeper, within⟩, -, _, reads, greater, -, returns⟩ := returns
      obtain rfl := read_eq_some reads
      split at returns
      · obtain ⟨moved, places, onward⟩ := Option.bind_eq_some_iff.mp returns
        rw [place_eq_some places] at onward
        exact .move within deeper.ne' (ih (n - child) (by omega) onward rfl)
      · rw [place_eq_some returns]
        exact .stop s hole
    · rw [place_eq_some returns]
      exact .stop s hole

private theorem IndexedExcept.move (except : s.IndexedExcept n hole e) (inside : other < n)
    (different : other ≠ hole) : (s.placed hole (s.p other)).IndexedExcept n other e := by
  -- the elements off both cells are not the one that moves: their places differ
  have unmoved : ∀ i, i < n → i ≠ hole → i ≠ other → s.p i ≠ s.p other := by
    intro i within elsewhere apart same
    have first := except.recorded i within elsewhere
    rw [same, except.recorded other inside different] at first
    exact apart (Int.natCast_inj.mp first).symm
  refine ⟨fun i within apart => ?_, fun i within apart => ?_⟩
  · by_cases here : i = hole
    · rw [here, placed_p_self, placed_idx_self]
    · rw [placed_p_of_ne here, placed_idx_of_ne (unmoved i within here apart)]
      exact except.recorded i within here
  · by_cases here : i = hole
    · rw [here, placed_p_self]
      exact except.apart other inside different
    · rw [placed_p_of_ne here]
      exact except.apart i within here

private theorem IndexedExcept.finish (except : s.IndexedExcept n hole e) :
    (s.placed hole e).Indexed n := by
  intro i within
  by_cases here : i = hole
  · rw [here, placed_p_self, placed_idx_self]
  · rw [placed_p_of_ne here, placed_idx_of_ne (except.apart i within here)]
    exact except.recorded i within here

private theorem Carried.indexed (carried : Carried n e s hole result)
    (except : s.IndexedExcept n hole e) : result.Indexed n := by
  induction carried with
  | stop s hole => exact except.finish
  | move inside different _ ih => exact ih (except.move inside different)

/-- An element that is neither in hand nor in a cell keeps its index. -/
theorem Carried.idx_other (carried : Carried n e s hole result) (hand : x ≠ e)
    (absent : ∀ i, i < n → i ≠ hole → s.p i ≠ x) : result.idx x = s.idx x := by
  induction carried with
  | stop s hole => exact placed_idx_of_ne hand
  | @move s result hole other inside different _ ih =>
    have elsewhere : x ≠ s.p other := (absent other inside different).symm
    rw [ih fun i within apart => ?_]
    · exact placed_idx_of_ne elsewhere
    · by_cases here : i = hole
      · rw [here, placed_p_self]
        exact elsewhere.symm
      · rw [placed_p_of_ne here]
        exact absent i within here

end Cells

namespace MinHeap

variable {s : MinHeap α}

/-- `s` without `e`, which is marked as out of the heap. -/
structure Without (s : MinHeap α) (e : α) (t : MinHeap α) : Prop where
  elements : s.elements = e ::ₘ t.elements
  indexed : t.Indexed t.n
  marked : t.idx e = -1
  others : ∀ x, x ∉ s.elements → t.idx x = s.idx x

variable [DecidableEq α]

/-- The last element was carried to a place and the one that was there is marked. -/
theorem without_refilled (indexed : s.Indexed s.n) (inside : hole < s.n)
    (carried : Cells.Carried (s.n - 1) (s.p (s.n - 1)) s.toCells hole cells)
    (split : s.elements = s.p hole ::ₘ contents (s.n - 1) cells.p) :
    s.Without (s.p hole)
      { p := cells.p, a := cells.a, idx := Function.update cells.idx (s.p hole) (-1),
        n := s.n - 1 } := by
  have distinct : (s.p hole ::ₘ contents (s.n - 1) cells.p).Nodup := split ▸ indexed.nodup
  have out := (Multiset.nodup_cons.mp distinct).1
  refine ⟨split, fun i within => ?_, Function.update_self .., fun x absent => ?_⟩
  · have elsewhere : cells.p i ≠ s.p hole := fun same =>
      out (mem_contents.mpr ⟨i, within, same⟩)
    dsimp only
    rw [Function.update_of_ne elsewhere]
    exact carried.indexed (indexed.except_last hole) i within
  · have cell : ∀ i, i < s.n → s.p i ≠ x := fun i within same =>
      absent (mem_contents.mpr ⟨i, within, same⟩)
    dsimp only
    rw [Function.update_of_ne (cell hole inside).symm]
    exact carried.idx_other (cell (s.n - 1) (by omega)).symm fun i within _ => cell i (by omega)

theorem push_indexed (indexed : s.Indexed s.n) (new : e ∉ s.elements)
    (pushes : s.push elem e true = some (pushed, ret)) :
    pushed.Indexed pushed.n ∧ ∀ x, x ≠ e → x ∉ s.elements → pushed.idx x = s.idx x := by
  have cell : ∀ i, i < s.n → s.p i ≠ e := fun i within same =>
    new (mem_contents.mpr ⟨i, within, same⟩)
  obtain ⟨room, reserves, -⟩ := s.reserve_room (s.n + 1)
  rw [push, reserves] at pushes
  dsimp only at pushes
  rw [if_neg (by decide)] at pushes
  simp only [Option.bind_eq_bind, Option.bind_eq_some_iff, Option.some.injEq,
    Prod.mk.injEq] at pushes
  obtain ⟨unplaced, marks, cells, returns, rfl, -⟩ := pushes
  obtain rfl := Cells.setIdx_eq_some marks
  have carried := Cells.shiftUp_carried (Nat.lt_succ_self s.n) returns
  refine ⟨carried.indexed ⟨fun i within apart => ?_, fun i within apart => cell i (by omega)⟩,
    fun x other absent => ?_⟩
  · dsimp only
    rw [Function.update_of_ne (cell i (by omega))]
    exact indexed i (by omega)
  · refine (carried.idx_other other fun i within apart same => ?_).trans ?_
    · exact absent (mem_contents.mpr ⟨i, by omega, same⟩)
    · exact Function.update_of_ne other ..

variable {κ : Type} [LinearOrder κ] {key : α → κ}

theorem pop_without (compares : elem.Compares key) (valid : s.Valid elem key)
    (indexed : s.Indexed s.n) (nonempty : s.n ≠ 0) :
    ∃ popped, s.pop elem = some (popped, some (s.p 0)) ∧ popped.Valid elem key ∧
      popped.n + 1 = s.n ∧ s.Without (s.p 0) popped := by
  obtain ⟨popped, pops, kept, size, split⟩ := pop_spec compares valid nonempty
  refine ⟨popped, pops, kept, size, ?_⟩
  rw [pop, if_pos nonempty] at pops
  simp only [Option.bind_eq_bind, Option.bind_eq_some_iff, Option.some.injEq,
    Prod.mk.injEq] at pops
  obtain ⟨e, first, last, reads, cells, returns, marked, marks, rfl, rfl⟩ := pops
  obtain rfl := Cells.read_eq_some reads
  obtain rfl := Cells.setIdx_eq_some marks
  exact without_refilled indexed (Nat.pos_of_ne_zero nonempty) (Cells.shiftDown_carried returns)
    split

theorem erase_without (compares : elem.Compares key) (valid : s.Valid elem key)
    (indexed : s.Indexed s.n) (inside : hole < s.n) :
    ∃ erased, s.erase elem (s.p hole) = some (erased, 0) ∧ erased.Valid elem key ∧
      erased.n + 1 = s.n ∧ s.Without (s.p hole) erased := by
  have recorded := indexed hole inside
  obtain ⟨erased, erases, kept, size, split⟩ := erase_spec compares valid inside recorded
  refine ⟨erased, erases, kept, size, ?_⟩
  have live : elem.live (s.p hole) = true := valid.live _ (mem_contents.mpr ⟨hole, inside, rfl⟩)
  rw [erase, if_pos live, recorded, if_pos (by omega), if_neg (by omega), Int.toNat_natCast] at erases
  simp only [Option.bind_eq_bind, Option.bind_eq_some_iff, Option.some.injEq,
    Prod.mk.injEq, and_true] at erases
  obtain ⟨last, reads, up, asks, cells, carries, marked, marks, rfl⟩ := erases
  obtain rfl := Cells.read_eq_some reads
  obtain rfl := Cells.setIdx_eq_some marks
  refine without_refilled indexed inside ?_ split
  cases up with
  | false => exact Cells.shiftDown_carried carries
  | true =>
    rw [valid.parent_greater compares inside] at asks
    obtain ⟨positive, above⟩ := of_decide_eq_true (Option.some.inj asks)
    exact Cells.shiftUp_carried (valid.before_last inside positive above) carries

end MinHeap

end TcpCongestion
