import TcpCongestion.MinHeap

/-! What the heap operations do to the elements they hold: the sift loops put the key in
hand where the order wants it and lose nothing on the way, so a push adds one element and
a pop takes a least one. -/
namespace TcpCongestion

open HeapOrder

variable {α κ : Type} [LinearOrder κ] {elem : Element α} {key : α → κ}

/-- `operator>` compares the keys. -/
def Element.Compares (elem : Element α) (key : α → κ) : Prop :=
  ∀ x y, elem.greater x y = true ↔ key y < key x

theorem Element.elemGreater_live (first : elem.live x = true) (second : elem.live y = true) :
    elem.elemGreater x y = some (elem.greater x y) := by
  simp [elemGreater, first, second]

namespace Cells

variable {s : Cells α}

theorem read_inside (inside : i < s.a) : s.read i = some (s.p i) := if_pos inside

/-- The elements a sift compares are there when everything it holds is. -/
theorem elemGreater_held (live : ∀ x ∈ contents n (Function.update s.p hole e), elem.live x)
    (inside : hole < n) (within : i < n) (other : i ≠ hole) :
    elem.elemGreater (s.p i) e = some (elem.greater (s.p i) e) ∧
      elem.elemGreater e (s.p i) = some (elem.greater e (s.p i)) ∧
        elem.live e = true ∧ elem.live (s.p i) = true := by
  have hand : elem.live e = true :=
    live e (mem_contents.mpr ⟨hole, inside, Function.update_self ..⟩)
  have cell : elem.live (s.p i) = true :=
    live (s.p i) (mem_contents.mpr ⟨i, within, Function.update_of_ne other ..⟩)
  exact ⟨Element.elemGreater_live cell hand, Element.elemGreater_live hand cell, hand, cell⟩

/-- The child the hole would go to is a least one. -/
theorem minChild_spec (compares : elem.Compares key) (room : n ≤ s.a)
    (live : ∀ i, i < n → i ≠ hole → elem.live (s.p i) = true)
    (children : 2 * (hole + 1) ≤ n) :
    ∃ child, s.minChild elem n hole children = some child ∧ parent child.val = hole ∧
      ∀ d, 0 < d → d < n → parent d = hole → key (s.p child.val) ≤ key (s.p d) := by
  have left : parent (2 * (hole + 1) - 1) = hole := (parent_eq_iff (by omega)).mpr (by omega)
  have right : parent (2 * (hole + 1)) = hole := (parent_eq_iff (by omega)).mpr (by omega)
  rw [minChild]
  by_cases last : 2 * (hole + 1) = n
  · rw [dif_pos last]
    refine ⟨_, rfl, left, fun d below inside child => ?_⟩
    have only : d = 2 * (hole + 1) - 1 := by
      have := (parent_eq_iff below).mp child
      omega
    rw [only]
  · have both : elem.elemGreater (s.p (2 * (hole + 1))) (s.p (2 * (hole + 1) - 1)) =
        some (elem.greater (s.p (2 * (hole + 1))) (s.p (2 * (hole + 1) - 1))) :=
      Element.elemGreater_live (live _ (by omega) (by omega)) (live _ (by omega) (by omega))
    rw [dif_neg last, read_inside (by omega), read_inside (by omega)]
    simp only [Option.bind_eq_bind, Option.bind_some, both]
    by_cases greater :
      elem.greater (s.p (2 * (hole + 1))) (s.p (2 * (hole + 1) - 1)) = true
    · rw [if_pos greater]
      refine ⟨_, rfl, left, fun d below inside child => ?_⟩
      rcases (parent_eq_iff below).mp child with rfl | rfl
      · exact le_refl _
      · exact ((compares _ _).mp greater).le
    · rw [if_neg greater]
      refine ⟨_, rfl, right, fun d below inside child => ?_⟩
      rcases (parent_eq_iff below).mp child with rfl | rfl
      · exact le_of_not_gt fun less => greater ((compares _ _).mpr less)
      · exact le_refl _

variable [DecidableEq α]

private theorem setIdx_live (live : elem.live e = true) (position : Int) :
    s.setIdx elem e position = some { s with idx := Function.update s.idx e position } :=
  if_pos live

/-- The cells after a placement. -/
def placed (s : Cells α) (i : Nat) (e : α) : Cells α :=
  { s with p := Function.update s.p i e, idx := Function.update s.idx e i }

private theorem place_inside (inside : i < s.a) (live : elem.live e = true) :
    s.place elem i e = some (s.placed i e) := by
  rw [place, if_pos inside, setIdx_live live]
  rfl

/-- The result of a sift over the first `n` cells, `held` being those cells with the
element in hand in its hole. -/
structure Sifted (key : α → κ) (n : Nat) (held : Nat → α) (room : Nat) (s : Cells α) :
    Prop where
  ordered : Ordered n (key ∘ s.p)
  contents : contents n s.p = contents n held
  room : s.a = room

private theorem UpHole.placed (up : UpHole n (key ∘ s.p) hole (key e))
    (stop : 0 < hole → key (s.p (parent hole)) ≤ key e) :
    Sifted key n (Function.update s.p hole e) s.a (s.placed hole e) := by
  refine ⟨?_, rfl, rfl⟩
  rw [Cells.placed, Function.comp_update]
  exact up.finish stop

private theorem DownHole.placed (down : DownHole n (key ∘ s.p) hole (key e))
    (stop : ∀ c, 0 < c → c < n → parent c = hole → key e ≤ key (s.p c)) :
    Sifted key n (Function.update s.p hole e) s.a (s.placed hole e) := by
  refine ⟨?_, rfl, rfl⟩
  rw [Cells.placed, Function.comp_update]
  exact down.finish stop

private theorem shiftUp_spec (compares : elem.Compares key) {s : Cells α} (inside : hole < n)
    (room : n ≤ s.a) (up : UpHole n (key ∘ s.p) hole (key e))
    (live : ∀ x ∈ contents n (Function.update s.p hole e), elem.live x) :
    ∃ result, s.shiftUp elem hole e = some result ∧
      Sifted key n (Function.update s.p hole e) s.a result := by
  induction hole using Nat.strong_induction_on generalizing s with
  | _ hole ih =>
    have hand : elem.live e = true :=
      live e (mem_contents.mpr ⟨hole, inside, Function.update_self ..⟩)
    have placing : s.place elem hole e = some (s.placed hole e) :=
      place_inside (inside.trans_le room) hand
    rw [shiftUp]
    rcases Nat.eq_zero_or_pos hole with root | below
    · rw [if_pos root, placing]
      exact ⟨_, rfl, UpHole.placed up fun below => absurd root below.ne'⟩
    · have above := parent_lt below
      obtain ⟨compare, -, -, cell⟩ := elemGreater_held live inside (above.trans inside) above.ne
      rw [if_neg below.ne', read_inside (by omega), Option.bind_eq_bind, Option.bind_some,
        compare, Option.bind_eq_bind, Option.bind_some]
      by_cases greater : elem.greater (s.p (parent hole)) e = true
      · rw [if_pos greater, place_inside (inside.trans_le room) cell, Option.bind_eq_bind,
          Option.bind_some]
        have same := contents_move (f := s.p) inside (above.trans inside) above.ne e
        have moved : UpHole n (key ∘ (s.placed hole (s.p (parent hole))).p) (parent hole)
            (key e) := by
          rw [placed, Function.comp_update]
          exact up.move below inside ((compares _ _).mp greater)
        obtain ⟨result, returns, sifted⟩ := ih (parent hole) above (above.trans inside)
          (s := s.placed hole (s.p (parent hole))) room moved (fun x member => live x (same ▸ member))
        exact ⟨result, returns, sifted.ordered, sifted.contents.trans same, sifted.room⟩
      · rw [if_neg greater, placing]
        have stop : key (s.p (parent hole)) ≤ key e :=
          le_of_not_gt fun less => greater ((compares _ _).mpr less)
        exact ⟨_, rfl, UpHole.placed up fun _ => stop⟩

private theorem shiftDown_spec (compares : elem.Compares key) {s : Cells α} (inside : hole < n)
    (room : n ≤ s.a) (down : DownHole n (key ∘ s.p) hole (key e))
    (live : ∀ x ∈ contents n (Function.update s.p hole e), elem.live x) :
    ∃ result, s.shiftDown elem n hole e = some result ∧
      Sifted key n (Function.update s.p hole e) s.a result := by
  induction distance : n - hole using Nat.strong_induction_on generalizing s hole with
  | _ _ ih =>
    have hand : elem.live e = true :=
      live e (mem_contents.mpr ⟨hole, inside, Function.update_self ..⟩)
    have placing : s.place elem hole e = some (s.placed hole e) :=
      place_inside (inside.trans_le room) hand
    have cells : ∀ i, i < n → i ≠ hole → elem.live (s.p i) = true := fun i within other =>
      live (s.p i) (mem_contents.mpr ⟨i, within, Function.update_of_ne other ..⟩)
    rw [shiftDown]
    by_cases children : 2 * (hole + 1) ≤ n
    · obtain ⟨⟨child, deeper, within⟩, picks, below, least⟩ :=
        minChild_spec compares room cells children
      obtain ⟨-, compare, -, cell⟩ := elemGreater_held live inside within deeper.ne'
      rw [dif_pos children, picks]
      simp only [Option.bind_eq_bind, Option.bind_some, read_inside (within.trans_le room),
        compare]
      by_cases greater : elem.greater e (s.p child) = true
      · rw [if_pos greater, place_inside (inside.trans_le room) cell, Option.bind_some]
        have same := contents_move (f := s.p) inside within deeper.ne' e
        have moved : DownHole n (key ∘ (s.placed hole (s.p child)).p) child (key e) := by
          rw [placed, Function.comp_update]
          exact down.move (by omega) below within least ((compares _ _).mp greater)
        obtain ⟨result, returns, sifted⟩ := ih (n - child) (by omega) within
          (s := s.placed hole (s.p child)) room moved (fun x member => live x (same ▸ member)) rfl
        exact ⟨result, returns, sifted.ordered, sifted.contents.trans same, sifted.room⟩
      · rw [if_neg greater, placing]
        have stop : key e ≤ key (s.p child) :=
          le_of_not_gt fun less => greater ((compares _ _).mpr less)
        exact ⟨_, rfl, DownHole.placed down fun d positive held under =>
          stop.trans (least d positive held under)⟩
    · rw [dif_neg children, placing]
      refine ⟨_, rfl, DownHole.placed down fun c positive held under => ?_⟩
      rcases (parent_eq_iff positive).mp under with rfl | rfl <;> omega

end Cells

namespace MinHeap

variable {s : MinHeap α}

/-- The elements the heap holds. -/
def elements (s : MinHeap α) : Multiset α := contents s.n s.p

/-- A heap as its operations leave it. -/
structure Valid (elem : Element α) (key : α → κ) (s : MinHeap α) : Prop where
  room : s.n ≤ s.a
  ordered : Ordered s.n (key ∘ s.p)
  live : ∀ x ∈ s.elements, elem.live x = true

theorem ctor_valid (elem : Element α) (key : α → κ) (memory : Nat → α) (idx : α → Int) :
    (ctor memory idx).Valid elem key :=
  ⟨le_refl 0, fun _ _ inside => absurd inside (Nat.not_lt_zero _),
    fun _ member => absurd member (Multiset.notMem_zero _)⟩

/-- The top is a least element. -/
theorem Valid.top_le (valid : s.Valid elem key) (member : x ∈ s.elements) :
    key (s.p 0) ≤ key x := by
  obtain ⟨i, inside, rfl⟩ := mem_contents.mp member
  exact valid.ordered.root_le inside

private theorem Valid.top_mem (nonempty : s.n ≠ 0) : s.p 0 ∈ s.elements :=
  mem_contents.mpr ⟨0, Nat.pos_of_ne_zero nonempty, rfl⟩

theorem reserve_room (s : MinHeap α) (n : Nat) :
    ∃ room, s.reserve n true = ({ s with a := room }, 0) ∧ n ≤ room := by
  rw [reserve]
  by_cases small : s.a < n
  · rw [if_pos small]
    refine ⟨_, rfl, ?_⟩
    split_ifs <;> omega
  · rw [if_neg small]
    exact ⟨s.a, rfl, not_lt.mp small⟩

/-- Filling a place from the last cell takes out what was there. -/
theorem elements_refilled (inside : hole < s.n) :
    s.elements = s.p hole ::ₘ
      contents (s.n - 1) (Function.update s.p hole (s.p (s.n - 1))) := by
  obtain ⟨m, size⟩ := Nat.exists_eq_succ_of_ne_zero (Nat.ne_zero_of_lt inside)
  rw [elements, size, contents_succ, Nat.succ_sub_one]
  rcases Nat.lt_or_ge hole m with inner | last
  · rw [contents_update inner]
  · obtain rfl : hole = m := by omega
    exact congrArg _ (contents_congr fun i below => (Function.update_of_ne below.ne _ _).symm)

/-- A heap whose last element was carried to the place of another is one without it. -/
theorem Valid.refilled (valid : s.Valid elem key) (inside : hole < s.n)
    (sifted : Cells.Sifted key (s.n - 1) (Function.update s.p hole (s.p (s.n - 1))) s.a cells)
    (idx : α → Int) :
    Valid elem key { p := cells.p, a := cells.a, idx := idx, n := s.n - 1 } ∧
      s.elements = s.p hole ::ₘ contents (s.n - 1) cells.p := by
  have room := valid.room
  have split := elements_refilled inside
  rw [← sifted.contents] at split
  refine ⟨⟨?_, sifted.ordered, fun x member => ?_⟩, split⟩
  · dsimp only
    rw [sifted.room]
    omega
  · exact valid.live x (split ▸ Multiset.mem_cons_of_mem member)

/-- The parent of the last element is not greater. -/
theorem Valid.before_last (valid : s.Valid elem key) (inside : hole < s.n) (positive : 0 < hole)
    (above : key (s.p (s.n - 1)) < key (s.p (parent hole))) : hole < s.n - 1 := by
  by_contra last
  obtain rfl : hole = s.n - 1 := by omega
  exact absurd above (not_lt.mpr (valid.ordered (s.n - 1) positive inside))

/-- What `min_heap_erase` asks before it carries the last element. -/
theorem Valid.parent_greater (valid : s.Valid elem key) (compares : elem.Compares key)
    (inside : hole < s.n) :
    (if 0 < (hole : Int) then
        (s.read (parent hole)).bind (elem.elemGreater · (s.p (s.n - 1)))
      else some false) =
      some (decide (0 < hole ∧ key (s.p (s.n - 1)) < key (s.p (parent hole)))) := by
  have room := valid.room
  have live : ∀ i, i < s.n → elem.live (s.p i) = true := fun i within =>
    valid.live _ (mem_contents.mpr ⟨i, within, rfl⟩)
  rcases Nat.eq_zero_or_pos hole with rfl | positive
  · rfl
  · have above := parent_lt positive
    rw [if_pos (Int.natCast_pos.mpr positive), Cells.read_inside (by omega), Option.bind_some,
      Element.elemGreater_live (live _ (by omega)) (live _ (by omega)), Option.some_inj,
      Bool.eq_iff_iff, compares, decide_eq_true_eq]
    exact (and_iff_right positive).symm

variable [DecidableEq α]

theorem push_spec (compares : elem.Compares key) (valid : s.Valid elem key)
    (live : elem.live e = true) :
    ∃ pushed, s.push elem e true = some (pushed, 0) ∧ pushed.Valid elem key ∧
      pushed.elements = e ::ₘ s.elements := by
  obtain ⟨room, reserves, enough⟩ := s.reserve_room (s.n + 1)
  have added : contents (s.n + 1) (Function.update s.p s.n e) = e ::ₘ s.elements :=
    contents_push ..
  have present : ∀ x ∈ contents (s.n + 1) (Function.update s.p s.n e), elem.live x := by
    intro x member
    rw [added, Multiset.mem_cons] at member
    rcases member with rfl | old
    · exact live
    · exact valid.live x old
  obtain ⟨cells, returns, sifted⟩ := Cells.shiftUp_spec compares
    (s := { s with a := room, idx := Function.update s.idx e (-1) }) (Nat.lt_succ_self s.n) enough
    (valid.ordered.upHole_last (key e)) present
  refine ⟨{ toCells := cells, n := s.n + 1 }, ?_, ?_, sifted.contents.trans added⟩
  · rw [push, reserves]
    dsimp only
    rw [if_neg (by decide), Cells.setIdx_live live, Option.bind_eq_bind, Option.bind_some, returns]
    rfl
  · exact ⟨sifted.room ▸ enough, sifted.ordered, fun x member =>
      present x (sifted.contents ▸ member)⟩

/-- The last element carried down from a place it is not below. When it stands in that
place itself the loop ends at once. -/
theorem Valid.shiftDown_last (valid : s.Valid elem key) (compares : elem.Compares key)
    (inside : hole < s.n) (above : 0 < hole → key (s.p (parent hole)) ≤ key (s.p (s.n - 1))) :
    ∃ cells, s.shiftDown elem (s.n - 1) hole (s.p (s.n - 1)) = some cells ∧
      Cells.Sifted key (s.n - 1) (Function.update s.p hole (s.p (s.n - 1))) s.a cells := by
  have room := valid.room
  have ordered : Ordered (s.n - 1) (key ∘ s.p) := valid.ordered.mono (by omega)
  rcases Nat.lt_or_ge hole (s.n - 1) with inner | last
  · refine Cells.shiftDown_spec compares inner (by omega)
      ⟨ordered.except hole, ordered.grand hole, above⟩ fun x member => ?_
    exact valid.live x (elements_refilled inside ▸ Multiset.mem_cons_of_mem member)
  · obtain rfl : hole = s.n - 1 := by omega
    have live : elem.live (s.p (s.n - 1)) = true :=
      valid.live _ (mem_contents.mpr ⟨s.n - 1, inside, rfl⟩)
    rw [Cells.shiftDown, dif_neg (by omega), Cells.place_inside (by omega) live]
    refine ⟨_, rfl, ?_, rfl, rfl⟩
    rw [Cells.placed, Function.update_eq_self]
    exact ordered

/-- The last element carried up from a place whose parent is greater. -/
theorem Valid.shiftUp_last (valid : s.Valid elem key) (compares : elem.Compares key)
    (inside : hole < s.n) (positive : 0 < hole)
    (above : key (s.p (s.n - 1)) < key (s.p (parent hole))) :
    ∃ cells, s.shiftUp elem hole (s.p (s.n - 1)) = some cells ∧
      Cells.Sifted key (s.n - 1) (Function.update s.p hole (s.p (s.n - 1))) s.a cells := by
  have room := valid.room
  have ordered : Ordered (s.n - 1) (key ∘ s.p) := valid.ordered.mono (by omega)
  have inner := valid.before_last inside positive above
  refine Cells.shiftUp_spec compares inner (by omega)
    ⟨ordered.except hole, ordered.grand hole, fun c below within child => ?_⟩ fun x member => ?_
  · exact above.le.trans (ordered.grand hole positive c below within child)
  · exact valid.live x (elements_refilled inside ▸ Multiset.mem_cons_of_mem member)

theorem pop_spec (compares : elem.Compares key) (valid : s.Valid elem key) (nonempty : s.n ≠ 0) :
    ∃ popped, s.pop elem = some (popped, some (s.p 0)) ∧ popped.Valid elem key ∧
      popped.n + 1 = s.n ∧ s.elements = s.p 0 ::ₘ popped.elements := by
  have room := valid.room
  have inside : 0 < s.n := Nat.pos_of_ne_zero nonempty
  obtain ⟨cells, returns, sifted⟩ := valid.shiftDown_last compares inside
    fun positive => absurd positive (Nat.lt_irrefl 0)
  obtain ⟨kept, split⟩ := valid.refilled inside sifted (Function.update cells.idx (s.p 0) (-1))
  refine ⟨_, ?_, kept, by dsimp only; omega, split⟩
  rw [pop, if_pos nonempty, Cells.read_inside (by omega), Cells.read_inside (by omega)]
  simp only [Option.bind_eq_bind, Option.bind_some, returns,
    Cells.setIdx_live (valid.live _ (Valid.top_mem nonempty))]

/-- An element whose index is its place is erased from there. -/
theorem erase_spec (compares : elem.Compares key) (valid : s.Valid elem key) (inside : hole < s.n)
    (recorded : s.idx (s.p hole) = hole) :
    ∃ erased, s.erase elem (s.p hole) = some (erased, 0) ∧ erased.Valid elem key ∧
      erased.n + 1 = s.n ∧ s.elements = s.p hole ::ₘ erased.elements := by
  have room := valid.room
  have live : elem.live (s.p hole) = true := valid.live _ (mem_contents.mpr ⟨hole, inside, rfl⟩)
  have carries : ∃ cells,
      (if 0 < hole ∧ key (s.p (s.n - 1)) < key (s.p (parent hole)) then
          s.shiftUp elem hole (s.p (s.n - 1))
        else s.shiftDown elem (s.n - 1) hole (s.p (s.n - 1))) = some cells ∧
      Cells.Sifted key (s.n - 1) (Function.update s.p hole (s.p (s.n - 1))) s.a cells := by
    split_ifs with up
    · exact valid.shiftUp_last compares inside up.1 up.2
    · exact valid.shiftDown_last compares inside fun positive =>
        not_lt.mp fun less => up ⟨positive, less⟩
  obtain ⟨cells, returns, sifted⟩ := carries
  obtain ⟨kept, split⟩ := valid.refilled inside sifted (Function.update cells.idx (s.p hole) (-1))
  refine ⟨_, ?_, kept, by dsimp only; omega, split⟩
  rw [erase, if_pos live, recorded, if_pos (by omega), if_neg (by omega),
    Cells.read_inside (by omega)]
  simp only [Int.toNat_natCast, Option.bind_eq_bind, Option.bind_some,
    valid.parent_greater compares inside, decide_eq_true_eq, returns, Cells.setIdx_live live]

end MinHeap

end TcpCongestion
