import Mathlib.Data.Multiset.Range
import Mathlib.Data.Finset.Range
import Mathlib.Data.Finset.Image
import Mathlib.Logic.Equiv.Basic
import Mathlib.Order.Basic

/-! Binary heap order on a sequence of keys, and the two ways of moving a hole
through it. A sift keeps a hole into which the last step puts the key in hand;
`UpHole` and `DownHole` are what such a hole needs to travel in each direction,
`move` is one step of the journey and `finish` its end. The multiset of the
sequence is unchanged by a step. -/
namespace TcpCongestion.HeapOrder

/-- The position above `i`; the root is its own. -/
def parent (i : Nat) : Nat := (i - 1) / 2

theorem parent_lt (below : 0 < i) : parent i < i := by
  rw [parent]
  omega

/-- The two positions below `i`. -/
theorem parent_eq_iff (below : 0 < c) : parent c = i ↔ c = 2 * i + 1 ∨ c = 2 * i + 2 := by
  rw [parent]
  omega

section Order

variable {κ : Type} [LinearOrder κ] {n hole : Nat} {f : Nat → κ} {key : κ}

/-- No key among the first `n` is below the one above it. -/
def Ordered (n : Nat) (f : Nat → κ) : Prop := ∀ i, 0 < i → i < n → f (parent i) ≤ f i

theorem Ordered.root_le (ordered : Ordered n f) (inside : i < n) : f 0 ≤ f i := by
  induction i using Nat.strong_induction_on with
  | _ i ih =>
    rcases Nat.eq_zero_or_pos i with rfl | below
    · exact le_refl _
    · have above := parent_lt below
      exact (ih (parent i) above (above.trans inside)).trans (ordered i below inside)

/-- The pairs that do not touch the hole are in order. -/
def OrderedExcept (n : Nat) (f : Nat → κ) (hole : Nat) : Prop :=
  ∀ i, 0 < i → i < n → i ≠ hole → parent i ≠ hole → f (parent i) ≤ f i

/-- The positions below the hole are in order with the one above it. -/
def Grand (n : Nat) (f : Nat → κ) (hole : Nat) : Prop :=
  0 < hole → ∀ c, 0 < c → c < n → parent c = hole → f (parent hole) ≤ f c

/-- A hole that may travel up with `key`. -/
structure UpHole (n : Nat) (f : Nat → κ) (hole : Nat) (key : κ) : Prop where
  except : OrderedExcept n f hole
  grand : Grand n f hole
  below : ∀ c, 0 < c → c < n → parent c = hole → key ≤ f c

/-- A hole that may travel down with `key`. -/
structure DownHole (n : Nat) (f : Nat → κ) (hole : Nat) (key : κ) : Prop where
  except : OrderedExcept n f hole
  grand : Grand n f hole
  above : 0 < hole → f (parent hole) ≤ key

theorem Ordered.except (ordered : Ordered n f) (hole : Nat) : OrderedExcept n f hole :=
  fun i below inside _ _ => ordered i below inside

theorem Ordered.grand (ordered : Ordered n f) (hole : Nat) : Grand n f hole := by
  intro positive c below inside child
  have above := ordered c below inside
  have inner : hole < n := child ▸ (parent_lt below).trans inside
  rw [child] at above
  exact (ordered hole positive inner).trans above

/-- A new last position is a hole with nothing below it. -/
theorem Ordered.upHole_last (ordered : Ordered n f) (key : κ) : UpHole (n + 1) f n key := by
  have none : ∀ c, 0 < c → c < n + 1 → parent c ≠ n := by
    intro c below inside child
    have := parent_lt below
    omega
  refine ⟨?_, ?_, fun c below inside child => absurd child (none c below inside)⟩
  · intro i below inside other _
    exact ordered i below (by omega)
  · intro _ c below inside child
    exact absurd child (none c below inside)

/-- A shorter prefix is still in order. -/
theorem Ordered.mono (ordered : Ordered n f) (shorter : m ≤ n) : Ordered m f :=
  fun i below inside => ordered i below (inside.trans_le shorter)

/-- The key above the hole comes down, and the hole is where it was. -/
theorem UpHole.move (up : UpHole n f hole key) (positive : 0 < hole) (inside : hole < n)
    (greater : key < f (parent hole)) :
    UpHole n (Function.update f hole (f (parent hole))) (parent hole) key := by
  have above := parent_lt positive
  have climbed : 0 < parent hole → f (parent (parent hole)) ≤ f (parent hole) := by
    intro inner
    have higher := parent_lt inner
    exact up.except (parent hole) inner (above.trans inside) (by omega) (by omega)
  -- the other child of the old parent is in order with it
  have sibling : ∀ c, 0 < c → c < n → c ≠ hole → parent c = parent hole →
      f (parent hole) ≤ f c := by
    intro c below within other child
    have := up.except c below within other (by omega)
    rwa [child] at this
  refine ⟨?_, ?_, ?_⟩
  · intro i below within other notChild
    have elsewhere : i ≠ hole := fun same => notChild (same ▸ rfl)
    rw [Function.update_of_ne elsewhere]
    by_cases child : parent i = hole
    · rw [child, Function.update_self]
      exact up.grand positive i below within child
    · rw [Function.update_of_ne child]
      exact up.except i below within elsewhere child
  · intro inner c below within child
    have higher := parent_lt inner
    rw [Function.update_of_ne (show parent (parent hole) ≠ hole by omega)]
    by_cases here : c = hole
    · rw [here, Function.update_self]
      exact climbed inner
    · rw [Function.update_of_ne here]
      exact (climbed inner).trans (sibling c below within here child)
  · intro c below within child
    by_cases here : c = hole
    · rw [here, Function.update_self]
      exact greater.le
    · rw [Function.update_of_ne here]
      exact greater.le.trans (sibling c below within here child)

theorem UpHole.finish (up : UpHole n f hole key) (stop : 0 < hole → f (parent hole) ≤ key) :
    Ordered n (Function.update f hole key) := by
  intro i below within
  have above := parent_lt below
  by_cases here : i = hole
  · subst here
    rw [Function.update_self, Function.update_of_ne (show parent i ≠ i by omega)]
    exact stop below
  · rw [Function.update_of_ne here]
    by_cases child : parent i = hole
    · rw [child, Function.update_self]
      exact up.below i below within child
    · rw [Function.update_of_ne child]
      exact up.except i below within here child

/-- The least key below the hole comes up, and the hole is where it was. -/
theorem DownHole.move (down : DownHole n f hole key) (below : 0 < c) (child : parent c = hole)
    (inside : c < n) (least : ∀ d, 0 < d → d < n → parent d = hole → f c ≤ f d)
    (greater : f c < key) : DownHole n (Function.update f hole (f c)) c key := by
  have deeper : hole < c := child ▸ parent_lt below
  refine ⟨?_, ?_, ?_⟩
  · intro i positive within other notChild
    have above := parent_lt positive
    by_cases here : i = hole
    · subst here
      rw [Function.update_self, Function.update_of_ne (show parent i ≠ i by omega)]
      exact down.grand positive c below inside child
    · rw [Function.update_of_ne here]
      by_cases sibling : parent i = hole
      · rw [sibling, Function.update_self]
        exact least i positive within sibling
      · rw [Function.update_of_ne sibling]
        exact down.except i positive within here sibling
  · intro _ d positive within grandchild
    have above := parent_lt positive
    rw [child, Function.update_self, Function.update_of_ne (show d ≠ hole by omega)]
    have ordered := down.except d positive within (by omega) (by omega)
    rwa [grandchild] at ordered
  · intro _
    rw [child, Function.update_self]
    exact greater.le

theorem DownHole.finish (down : DownHole n f hole key)
    (stop : ∀ c, 0 < c → c < n → parent c = hole → key ≤ f c) :
    Ordered n (Function.update f hole key) := by
  intro i below within
  have above := parent_lt below
  by_cases here : i = hole
  · subst here
    rw [Function.update_self, Function.update_of_ne (show parent i ≠ i by omega)]
    exact down.above below
  · rw [Function.update_of_ne here]
    by_cases child : parent i = hole
    · rw [child, Function.update_self]
      exact stop i below within child
    · rw [Function.update_of_ne child]
      exact down.except i below within here child

end Order

section Contents

variable {α : Type} {n : Nat} {f : Nat → α}

/-- What the first `n` positions hold, in no order. -/
def contents (n : Nat) (f : Nat → α) : Multiset α := (Multiset.range n).map f

theorem contents_congr {f g : Nat → α} (same : ∀ i, i < n → f i = g i) :
    contents n f = contents n g :=
  Multiset.map_congr rfl fun i member => same i (Multiset.mem_range.mp member)

theorem contents_succ (n : Nat) (f : Nat → α) : contents (n + 1) f = f n ::ₘ contents n f := by
  rw [contents, Multiset.range_succ, Multiset.map_cons]
  rfl

/-- A new last position. -/
theorem contents_push (n : Nat) (f : Nat → α) (value : α) :
    contents (n + 1) (Function.update f n value) = value ::ₘ contents n f := by
  rw [contents_succ, Function.update_self]
  exact congrArg _ (contents_congr fun i below => Function.update_of_ne below.ne _ _)

theorem card_contents (n : Nat) (f : Nat → α) : (contents n f).card = n := by
  rw [contents, Multiset.card_map, Multiset.card_range]

theorem mem_contents : x ∈ contents n f ↔ ∃ i, i < n ∧ f i = x := by
  simp [contents]

/-- Putting a value in place of another. -/
theorem contents_update (inside : hole < n) (value : α) :
    f hole ::ₘ contents n (Function.update f hole value) = value ::ₘ contents n f := by
  induction n with
  | zero => exact absurd inside (Nat.not_lt_zero hole)
  | succ n ih =>
    rw [contents_succ, contents_succ]
    by_cases last : hole = n
    · subst last
      have same : contents hole (Function.update f hole value) = contents hole f :=
        contents_congr fun i below => Function.update_of_ne (by omega) _ _
      rw [Function.update_self, same, Multiset.cons_swap]
    · rw [Function.update_of_ne (Ne.symm last), Multiset.cons_swap, ih (by omega),
        Multiset.cons_swap]

/-- One step of a hole holding `value`: the value at `other` fills it and `value`
takes its place. -/
theorem contents_move (inside : hole < n) (within : other < n) (different : other ≠ hole)
    (value : α) :
    contents n (Function.update (Function.update f hole (f other)) other value) =
      contents n (Function.update f hole value) := by
  apply (Multiset.cons_inj_right (f other)).mp
  apply (Multiset.cons_inj_right (f hole)).mp
  have filled := contents_update (f := Function.update f hole (f other)) within value
  rw [Function.update_of_ne different] at filled
  rw [filled, Multiset.cons_swap, contents_update inside, Multiset.cons_swap (f hole),
    contents_update inside, Multiset.cons_swap]

end Contents

end TcpCongestion.HeapOrder
