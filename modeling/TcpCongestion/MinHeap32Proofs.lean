import TcpCongestion.HeapIndices
import TcpCongestion.MinHeap32

/-! The heap of 32-bit integers does what the heap without bounds does, as long as it
holds fewer than 2^31 elements: no index it computes and uses wraps around, and every
position fits an `int`. -/
namespace TcpCongestion

open HeapOrder Words

variable {α : Type} {elem : Element α}

/-- The same cells without bounds on the numbers. -/
def Cells32.wide (s : Cells32 α) : Cells α :=
  { p := s.p, a := s.a.toNat, idx := fun x => (s.idx x).toInt }

def MinHeap32.wide (s : MinHeap32 α) : MinHeap α :=
  { toCells := s.toCells32.wide, n := s.n.toNat }

/-- Two computations whose first steps agree and whose rest does after them. -/
theorem map_bind_eq {first : Option β} {wider : Option γ} {f : β → γ} {rest : β → Option δ}
    {g : δ → ε} {onward : γ → Option ε} (same : first.map f = wider)
    (after : ∀ x, first = some x → (rest x).map g = onward (f x)) :
    (first.bind rest).map g = wider.bind onward := by
  subst same
  cases first with
  | none => rfl
  | some x => exact after x rfl

theorem map_bind_congr {first : Option β} {rest : β → Option γ} {g : γ → δ}
    {onward : β → Option δ} (after : ∀ x, (rest x).map g = onward x) :
    (first.bind rest).map g = first.bind onward := by
  cases first with
  | none => rfl
  | some x => exact after x

namespace Cells32

variable {s : Cells32 α}

theorem read_wide (s : Cells32 α) (i : UInt32) : s.wide.read i.toNat = s.read i :=
  if_congr UInt32.lt_iff_toNat_lt.symm rfl rfl

private theorem toNat_children {hole : UInt32} (small : hole.toNat + 1 < 2 ^ 31) :
    (2 * (hole + 1)).toNat = 2 * (hole.toNat + 1) := by
  rw [UInt32.toNat_mul, toNat_succ (by omega), show (2 : UInt32).toNat = 2 from rfl]
  exact Nat.mod_eq_of_lt (by omega)

private theorem toNat_left {hole : UInt32} (small : hole.toNat + 1 < 2 ^ 31) :
    (2 * (hole + 1) - 1).toNat = 2 * (hole.toNat + 1) - 1 := by
  have right := toNat_children small
  rw [toNat_pred, right]
  exact mt toNat_eq_zero.mpr (by omega)

private theorem minChild_wide (small : hole.toNat + 1 < 2 ^ 31)
    (children : 2 * (hole.toNat + 1) ≤ n.toNat) :
    (s.minChild elem n (2 * (hole + 1))).map UInt32.toNat =
      (s.wide.minChild elem n.toNat hole.toNat children).map Subtype.val := by
  have right := toNat_children small
  have left := toNat_left small
  have last : 2 * (hole + 1) = n ↔ 2 * (hole.toNat + 1) = n.toNat := by
    rw [← UInt32.toNat_inj, right]
  rw [minChild, Cells.minChild]
  by_cases ends : 2 * (hole + 1) = n
  · rw [if_pos ends, dif_pos (last.mp ends), Option.map_some, left]
    rfl
  · have second : s.wide.read (2 * (hole.toNat + 1)) = s.read (2 * (hole + 1)) := by
      rw [← right, read_wide]
    have first : s.wide.read (2 * (hole.toNat + 1) - 1) = s.read (2 * (hole + 1) - 1) := by
      rw [← left, read_wide]
    rw [if_neg ends, dif_neg (mt last.mpr ends), second, first]
    simp only [Option.bind_eq_bind, Option.map_bind, Function.comp_def]
    refine Option.bind_congr fun x _ => Option.bind_congr fun y _ =>
      Option.bind_congr fun greater _ => ?_
    cases greater with
    | false => exact congrArg some right
    | true => exact congrArg some left

theorem read_inside (inside : i.toNat < s.a.toNat) : s.read i = some (s.p i.toNat) :=
  if_pos (UInt32.lt_iff_toNat_lt.mpr inside)

/-- The child a hole would go to, when the elements of the other cells are there. -/
theorem minChild_live {n hole : UInt32} (room : n.toNat ≤ s.a.toNat)
    (small : hole.toNat + 1 < 2 ^ 31) (children : 2 * (hole + 1) ≤ n)
    (live : ∀ i, i < n.toNat → i ≠ hole.toNat → elem.live (s.p i) = true) :
    ∃ child, s.minChild elem n (2 * (hole + 1)) = some child ∧ hole.toNat < child.toNat ∧
      child.toNat < n.toNat := by
  have right := toNat_children small
  have left := toNat_left small
  have within := UInt32.le_iff_toNat_le.mp children
  rw [minChild]
  by_cases last : 2 * (hole + 1) = n
  · rw [if_pos last]
    exact ⟨_, rfl, by omega, by omega⟩
  · have apart : (2 * (hole + 1)).toNat ≠ n.toNat := mt UInt32.toNat_inj.mp last
    rw [if_neg last, read_inside (by omega), read_inside (by omega)]
    simp only [Option.bind_eq_bind, Option.bind_some]
    rw [Element.elemGreater_live (live _ (by omega) (by omega)) (live _ (by omega) (by omega)),
      Option.bind_some]
    split
    · exact ⟨_, rfl, by omega, by omega⟩
    · exact ⟨_, rfl, by omega, by omega⟩

variable [DecidableEq α]

theorem setIdx_live (s : Cells32 α) (live : elem.live e = true) (position : Int32) :
    ∃ cells, s.setIdx elem e position = some cells ∧ cells.p = s.p ∧ cells.a = s.a :=
  ⟨_, if_pos live, rfl, rfl⟩

theorem place_live (inside : i.toNat < s.a.toNat) (live : elem.live e = true) :
    ∃ cells, s.place elem i e = some cells ∧ cells.p = Function.update s.p i.toNat e ∧
      cells.a = s.a := by
  rw [place, if_pos (UInt32.lt_iff_toNat_lt.mpr inside)]
  exact setIdx_live _ live _

private theorem setIdx_wide (elem : Element α) (s : Cells32 α) (e : α) (position : Int32) :
    (s.setIdx elem e position).map wide = s.wide.setIdx elem e position.toInt := by
  rw [setIdx, Cells.setIdx]
  split_ifs
  · have updated := Function.comp_update Int32.toInt s.idx e position
    exact congrArg (fun idx => some (Cells.mk s.p s.a.toNat idx)) updated
  · rfl

private theorem place_wide (small : i.toNat < 2 ^ 31) :
    (s.place elem i e).map wide = s.wide.place elem i.toNat e := by
  have inside : i < s.a ↔ i.toNat < s.wide.a := UInt32.lt_iff_toNat_lt
  rw [place, Cells.place]
  by_cases within : i < s.a
  · rw [if_pos within, if_pos (inside.mp within), setIdx_wide, toInt32_of_lt small]
    rfl
  · rw [if_neg within, if_neg (mt inside.mpr within)]
    rfl

private theorem shiftUp_wide (small : hole.toNat < 2 ^ 31) :
    (s.shiftUp elem hole e).map wide = s.wide.shiftUp elem hole.toNat e := by
  induction position : hole.toNat using Nat.strong_induction_on generalizing s hole with
  | _ _ ih =>
    subst position
    rw [shiftUp, Cells.shiftUp]
    by_cases root : hole = 0
    · rw [if_pos root, if_pos (toNat_eq_zero.mpr root), place_wide small]
    · have above := parent_lt (Nat.pos_of_ne_zero (mt toNat_eq_zero.mp root))
      rw [← toNat_parent root] at above
      rw [if_neg root, if_neg (mt toNat_eq_zero.mp root), ← toNat_parent root, read_wide]
      refine map_bind_congr fun parent => map_bind_congr fun greater => ?_
      cases greater with
      | false => exact place_wide small
      | true =>
        refine map_bind_eq (place_wide small) fun moved _ => ?_
        exact ih _ above (above.trans small) rfl

private theorem shiftDown_wide (small : n.toNat + 1 < 2 ^ 31) (within : hole.toNat ≤ n.toNat) :
    (s.shiftDown elem n hole e).map wide = s.wide.shiftDown elem n.toNat hole.toNat e := by
  induction distance : n.toNat - hole.toNat using Nat.strong_induction_on
    generalizing s hole with
  | _ _ ih =>
    have room : hole.toNat + 1 < 2 ^ 31 := by omega
    have placing : (s.place elem hole e).map wide = s.wide.place elem hole.toNat e :=
      place_wide (by omega)
    have children : 2 * (hole + 1) ≤ n ↔ 2 * (hole.toNat + 1) ≤ n.toNat := by
      rw [UInt32.le_iff_toNat_le, toNat_children room]
    rw [shiftDown, Cells.shiftDown]
    by_cases more : 2 * (hole + 1) ≤ n
    · rw [if_pos more, dif_pos (children.mp more)]
      have picks : (s.minChild elem n (2 * (hole + 1))).map UInt32.toNat =
          (s.wide.minChild elem n.toNat hole.toNat (children.mp more)).map Subtype.val :=
        minChild_wide room _
      cases chosen : s.wide.minChild elem n.toNat hole.toNat (children.mp more) with
      | none =>
        rw [chosen] at picks
        rw [Option.map_eq_none_iff.mp picks]
        rfl
      | some picked =>
        obtain ⟨_, deeper, inside⟩ := picked
        rw [chosen] at picks
        obtain ⟨child, found, rfl⟩ := Option.map_eq_some_iff.mp picks
        simp only [Option.bind_eq_bind, found, Option.bind_some, read_wide]
        refine map_bind_congr fun below => map_bind_congr fun greater => ?_
        cases greater with
        | false => exact placing
        | true =>
          refine map_bind_eq (place_wide (by omega)) fun moved _ => ?_
          rw [if_pos (UInt32.lt_iff_toNat_lt.mpr deeper)]
          exact ih (n.toNat - child.toNat) (by omega) inside.le rfl
    · rw [if_neg more, dif_neg (mt children.mpr more), placing]

end Cells32

namespace MinHeap32

variable {s : MinHeap32 α}

/-- The elements the heap holds. -/
def elements (s : MinHeap32 α) : Multiset α := contents s.n.toNat s.p

theorem card_elements (s : MinHeap32 α) : s.elements.card = s.n.toNat := card_contents ..

theorem wide_n_eq_zero : s.wide.n = 0 ↔ s.n = 0 := toNat_eq_zero

/-- A heap is empty or has a first element. -/
theorem top_cases (room : s.n.toNat ≤ s.a.toNat) :
    s.isEmpty = true ∨
      ¬ s.isEmpty = true ∧ 0 < s.n.toNat ∧ s.top = some (some (s.p 0)) := by
  have isEmpty_iff : s.isEmpty = true ↔ s.n = 0 := decide_eq_true_iff
  by_cases empty : s.n = 0
  · exact .inl (isEmpty_iff.mpr empty)
  · have positive := Nat.pos_of_ne_zero (mt toNat_eq_zero.mp empty)
    have first : s.read 0 = some (s.p 0) :=
      Cells32.read_inside (i := 0) (positive.trans_le room)
    refine .inr ⟨mt isEmpty_iff.mp empty, positive, ?_⟩
    rw [top, if_pos empty, first]
    rfl

private theorem read_last_wide (nonempty : s.n ≠ 0) :
    s.wide.read (s.wide.n - 1) = s.read (s.n - 1) := by
  rw [← Cells32.read_wide, toNat_pred nonempty]
  rfl

/-- `min_heap_reserve` only makes the array larger, and large enough unless it fails. -/
theorem reserve_spec (s : MinHeap32 α) (size : UInt32) (allocates : Bool) :
    (s.reserve size allocates).1.p = s.p ∧ (s.reserve size allocates).1.n = s.n ∧
      s.a ≤ (s.reserve size allocates).1.a ∧
      ((s.reserve size allocates).2 = 0 → size ≤ (s.reserve size allocates).1.a) := by
  have enough (room : UInt32) : size ≤ if room < size then size else room := by
    split
    · exact UInt32.le_refl _
    · exact UInt32.not_lt.mp ‹_›
  rw [reserve]
  by_cases full : s.a < size
  · rw [if_pos full]
    cases allocates with
    | false =>
      have failed : (-1 : Int32) ≠ 0 := by decide
      exact ⟨rfl, rfl, UInt32.le_refl _, fun done => absurd done failed⟩
    | true =>
      exact ⟨rfl, rfl, UInt32.le_trans (UInt32.le_of_lt full) (enough _), fun _ => enough _⟩
  · rw [if_neg full]
    exact ⟨rfl, rfl, UInt32.le_refl _, fun _ => UInt32.not_lt.mp full⟩

private theorem reserve_wide (s : MinHeap32 α) {size : UInt32} (small : size.toNat < 2 ^ 31)
    (allocates : Bool) :
    s.wide.reserve size.toNat allocates =
      ((s.reserve size allocates).1.wide, (s.reserve size allocates).2.toInt) := by
  have inside : s.a < size ↔ s.wide.a < size.toNat := UInt32.lt_iff_toNat_lt
  rw [reserve, MinHeap.reserve]
  by_cases full : s.a < size
  · have doubled : (s.a * 2).toNat = s.wide.a * 2 := by
      have fewer := inside.mp full
      rw [UInt32.toNat_mul, show (2 : UInt32).toNat = 2 from rfl]
      exact Nat.mod_eq_of_lt (by change s.wide.a * 2 < _; omega)
    have grown : (if s.a ≠ 0 then s.a * 2 else 8).toNat =
        if s.wide.a ≠ 0 then s.wide.a * 2 else 8 := by
      rw [apply_ite UInt32.toNat, doubled]
      exact if_congr (not_congr toNat_eq_zero.symm) rfl rfl
    have enough : (if (if s.a ≠ 0 then s.a * 2 else 8) < size then size
          else if s.a ≠ 0 then s.a * 2 else 8).toNat =
        if (if s.wide.a ≠ 0 then s.wide.a * 2 else 8) < size.toNat then size.toNat
          else if s.wide.a ≠ 0 then s.wide.a * 2 else 8 := by
      rw [apply_ite UInt32.toNat, grown]
      exact if_congr (UInt32.lt_iff_toNat_lt.trans (by rw [grown])) rfl rfl
    rw [if_pos full, if_pos (inside.mp full)]
    dsimp only
    rw [← enough]
    cases allocates with
    | false => rfl
    | true => rfl
  · rw [if_neg full, if_neg (mt inside.mpr full)]
    rfl

/-- What `min_heap_erase` asks of an index. -/
theorem ask_wide (s : MinHeap32 α) (last : α) (index : Int32) :
    (if 0 < index.toInt then
        (s.wide.read (parent index.toInt.toNat)).bind (elem.elemGreater · last)
      else some false) =
      if 0 < index then
        (s.read ((index - 1) / 2).toUInt32).bind (elem.elemGreater · last)
      else some false := by
  have sign : 0 < index.toInt ↔ 0 < index := by
    rw [Int32.lt_iff_toInt_lt]
    rfl
  by_cases positive : 0 < index.toInt
  · have half := toInt_half_pred positive
    have above := toUInt32_toNat ((index - 1) / 2) (by omega)
    have same : ((index - 1) / 2).toUInt32.toNat = parent index.toInt.toNat := by
      rw [parent]
      omega
    rw [if_pos positive, if_pos (sign.mp positive), ← same]
    exact congrArg (Option.bind · _) (Cells32.read_wide s.toCells32 _)
  · rw [if_neg positive, if_neg (mt sign.mpr positive)]

/-- A result over unbounded integers comes from one over machine words. -/
theorem exists_narrow {result : Option (MinHeap32 α × β)} (f : β → γ)
    (returns : result.map (fun given => (given.1.wide, f given.2)) = some (heap, answer)) :
    ∃ narrow ret, result = some (narrow, ret) ∧ narrow.wide = heap ∧ f ret = answer := by
  obtain ⟨⟨narrow, ret⟩, returned, same⟩ := Option.map_eq_some_iff.mp returns
  exact ⟨narrow, ret, returned, Prod.mk.inj same⟩

variable [DecidableEq α]

theorem push_wide (small : s.n.toNat + 1 < 2 ^ 31) (allocates : Bool) :
    (s.push elem e allocates).map (fun result => (result.1.wide, result.2.toInt)) =
      s.wide.push elem e allocates := by
  have more : (s.n + 1).toNat = s.n.toNat + 1 := toNat_succ (by omega)
  have reserves : s.wide.reserve (s.wide.n + 1) allocates =
      ((s.reserve (s.n + 1) allocates).1.wide, (s.reserve (s.n + 1) allocates).2.toInt) := by
    rw [← s.reserve_wide (by omega), more]
    rfl
  have size := (s.reserve_spec (s.n + 1) allocates).2.1
  rw [push, MinHeap.push, reserves]
  generalize s.reserve (s.n + 1) allocates = reserved at size ⊢
  obtain ⟨grown, ret⟩ := reserved
  dsimp only at size ⊢
  by_cases done : ret = 0
  · rw [if_neg (not_not.mpr done), if_neg (not_not.mpr (toInt_eq_zero.mpr done))]
    refine map_bind_eq (Cells32.setIdx_wide elem grown.toCells32 e (-1)) fun marked _ => ?_
    refine map_bind_eq (Cells32.shiftUp_wide (by rw [size]; omega)) fun cells _ => ?_
    have counts : (grown.n + 1).toNat = grown.wide.n + 1 := by
      rw [size, more, ← size]
      rfl
    rw [← counts]
    rfl
  · rw [if_pos done, if_pos (mt toInt_eq_zero.mp done)]
    rfl

theorem pop_wide (small : s.n.toNat < 2 ^ 31) :
    (s.pop elem).map (fun result => (result.1.wide, result.2)) = s.wide.pop elem := by
  rw [pop, MinHeap.pop]
  by_cases nonempty : s.n ≠ 0
  · have fewer : (s.n - 1).toNat = s.wide.n - 1 := toNat_pred nonempty
    have positive := mt wide_n_eq_zero.mp nonempty
    have first : s.wide.read 0 = s.read 0 := Cells32.read_wide s.toCells32 0
    have carries (last : α) : (s.shiftDown elem (s.n - 1) 0 last).map Cells32.wide =
        s.wide.shiftDown elem (s.wide.n - 1) 0 last := by
      rw [← fewer]
      refine Cells32.shiftDown_wide ?_ (Nat.zero_le _)
      change s.wide.n < _ at small
      omega
    rw [if_pos nonempty, if_pos positive, first, read_last_wide nonempty]
    refine map_bind_congr fun e => map_bind_congr fun last => ?_
    refine map_bind_eq (carries last) fun cells _ => ?_
    refine map_bind_eq (Cells32.setIdx_wide elem cells e (-1)) fun marked _ => ?_
    rw [← fewer]
    rfl
  · rw [if_neg nonempty, if_neg (not_congr wide_n_eq_zero |>.not.mpr nonempty)]
    rfl

private theorem erase_wide (small : s.n.toNat < 2 ^ 31)
    (held : s.idx e = -1 ∨ 0 ≤ (s.idx e).toInt ∧ (s.idx e).toInt < s.n.toNat) :
    (s.erase elem e).map (fun result => (result.1.wide, result.2.toInt)) =
      s.wide.erase elem e := by
  rw [erase, MinHeap.erase]
  by_cases live : elem.live e = true
  · rw [if_pos live, if_pos live]
    by_cases out : s.idx e = -1
    · have wide : s.wide.idx e = -1 := toInt_eq_neg_one.mpr out
      rw [if_neg (not_not.mpr out), if_neg (not_not.mpr wide)]
      rfl
    · have wide : s.wide.idx e ≠ -1 := mt toInt_eq_neg_one.mp out
      obtain ⟨nonneg, inside⟩ := held.resolve_left out
      have nonempty : s.n ≠ 0 := by
        rintro empty
        rw [empty, UInt32.toNat_zero] at inside
        omega
      have fewer : (s.n - 1).toNat = s.wide.n - 1 := toNat_pred nonempty
      have unsigned := toUInt32_toNat (s.idx e) nonneg
      have hole : (s.idx e).toUInt32.toNat = (s.wide.idx e).toNat := by
        change _ = (s.idx e).toInt.toNat
        omega
      have carries (up : Bool) (last : α) :
          (if up = true then s.shiftUp elem (s.idx e).toUInt32 last
            else s.shiftDown elem (s.n - 1) (s.idx e).toUInt32 last).map Cells32.wide =
          if up = true then s.wide.shiftUp elem (s.wide.idx e).toNat last
            else s.wide.shiftDown elem (s.wide.n - 1) (s.wide.idx e).toNat last := by
        have before : (s.n - 1).toNat = s.n.toNat - 1 := fewer
        rw [← fewer, ← hole]
        cases up with
        | false => exact Cells32.shiftDown_wide (by omega) (by omega)
        | true => exact Cells32.shiftUp_wide (by omega)
      rw [if_pos out, if_pos wide, if_neg (mt wide_n_eq_zero.mp nonempty), read_last_wide nonempty]
      refine map_bind_congr fun last => ?_
      change Option.map _ (Option.bind _ _) = Option.bind (if 0 < (s.idx e).toInt then
        (s.wide.read (parent (s.idx e).toInt.toNat)).bind (elem.elemGreater · last)
          else some false) _
      rw [s.ask_wide last (s.idx e)]
      refine map_bind_congr fun up => map_bind_eq (carries up last) fun cells _ => ?_
      refine map_bind_eq (Cells32.setIdx_wide elem cells e (-1)) fun marked _ => ?_
      rw [← fewer]
      rfl
  · rw [if_neg live, if_neg live]
    rfl

theorem push_narrow (small : s.n.toNat + 1 < 2 ^ 31)
    (pushes : s.wide.push elem e allocates = some (pushed, 0)) :
    ∃ narrow, s.push elem e allocates = some (narrow, 0) ∧ narrow.wide = pushed := by
  obtain ⟨narrow, ret, returns, same, zero⟩ :=
    exists_narrow Int32.toInt ((push_wide small allocates).trans pushes)
  exact ⟨narrow, toInt_eq_zero.mp zero ▸ returns, same⟩

theorem pop_narrow (small : s.n.toNat < 2 ^ 31) (pops : s.wide.pop elem = some (popped, e)) :
    ∃ narrow, s.pop elem = some (narrow, e) ∧ narrow.wide = popped := by
  obtain ⟨narrow, ret, returns, same, rfl⟩ := exists_narrow id ((pop_wide small).trans pops)
  exact ⟨narrow, returns, same⟩

theorem erase_narrow (small : s.n.toNat < 2 ^ 31)
    (held : 0 ≤ (s.idx e).toInt ∧ (s.idx e).toInt < s.n.toNat)
    (erases : s.wide.erase elem e = some (erased, 0)) :
    ∃ narrow, s.erase elem e = some (narrow, 0) ∧ narrow.wide = erased := by
  obtain ⟨narrow, ret, returns, same, zero⟩ :=
    exists_narrow Int32.toInt ((erase_wide small (.inr held)).trans erases)
  exact ⟨narrow, toInt_eq_zero.mp zero ▸ returns, same⟩

end MinHeap32

end TcpCongestion
