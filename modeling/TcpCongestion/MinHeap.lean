import TcpCongestion.HeapOrder

/-! The binary heap of `base/min_heap.h`, a template over its elements. The heap holds
pointers: it compares the elements they point to with `operator>` and writes each one's
position into its `min_heap_idx`. A `none` is an access outside the array or to an
element that is no longer there. -/
namespace TcpCongestion

open HeapOrder

/-- What the template needs of an element type. -/
structure Element (α : Type) where
  greater : α → α → Bool
  live : α → Bool

/-- The array and the elements' `min_heap_idx`. Cells that were never written hold
whatever `realloc` left there. -/
structure Cells (α : Type) where
  p : Nat → α
  a : Nat
  idx : α → Int

structure MinHeap (α : Type) extends Cells α where
  n : Nat

variable {α : Type} [DecidableEq α]

def Element.elemGreater (elem : Element α) (x y : α) : Option Bool :=
  if elem.live x && elem.live y then some (elem.greater x y) else none

/-- The write of `e->min_heap_idx`. -/
def Cells.setIdx (elem : Element α) (s : Cells α) (e : α) (position : Int) : Option (Cells α) :=
  if elem.live e then some { s with idx := Function.update s.idx e position } else none

def Cells.read (s : Cells α) (i : Nat) : Option α :=
  if i < s.a then some (s.p i) else none

/-- `(s->p[i] = e)->min_heap_idx = i`. -/
def Cells.place (elem : Element α) (s : Cells α) (i : Nat) (e : α) : Option (Cells α) :=
  if i < s.a then { s with p := Function.update s.p i e }.setIdx elem e i else none

def Cells.shiftUp (elem : Element α) (s : Cells α) (hole : Nat) (e : α) : Option (Cells α) :=
  if hole = 0 then
    s.place elem hole e
  else do
    let above ← s.read (parent hole)
    if ← elem.elemGreater above e then
      let s ← s.place elem hole above
      s.shiftUp elem (parent hole) e
    else
      s.place elem hole e
termination_by hole
decreasing_by exact parent_lt (by omega)

/-- The child a hole would go to: the left one when it is the last element, otherwise
the right one unless that is the greater. -/
def Cells.minChild (elem : Element α) (s : Cells α) (n hole : Nat)
    (children : 2 * (hole + 1) ≤ n) : Option { child // hole < child ∧ child < n } :=
  if last : 2 * (hole + 1) = n then
    some ⟨2 * (hole + 1) - 1, by omega⟩
  else do
    let right ← s.read (2 * (hole + 1))
    let left ← s.read (2 * (hole + 1) - 1)
    if ← elem.elemGreater right left then
      some ⟨2 * (hole + 1) - 1, by omega⟩
    else
      some ⟨2 * (hole + 1), by omega⟩

def Cells.shiftDown (elem : Element α) (s : Cells α) (n hole : Nat) (e : α) :
    Option (Cells α) :=
  if children : 2 * (hole + 1) ≤ n then do
    let ⟨child, _⟩ ← s.minChild elem n hole children
    let below ← s.read child
    if ← elem.elemGreater e below then
      let s ← s.place elem hole below
      s.shiftDown elem n child e
    else
      s.place elem hole e
  else
    s.place elem hole e
termination_by n - hole

namespace MinHeap

def ctor (memory : Nat → α) (idx : α → Int) : MinHeap α :=
  { p := memory, n := 0, a := 0, idx := idx }

def isEmpty (s : MinHeap α) : Bool := s.n = 0

def top (s : MinHeap α) : Option (Option α) :=
  if s.n ≠ 0 then (s.read 0).map some else some none

/-- `allocates` is whether `realloc` finds the memory. -/
def reserve (s : MinHeap α) (n : Nat) (allocates : Bool) : MinHeap α × Int :=
  if s.a < n then
    let a := if s.a ≠ 0 then s.a * 2 else 8
    let a := if a < n then n else a
    if allocates then ({ s with a := a }, 0) else (s, -1)
  else
    (s, 0)

def push (elem : Element α) (s : MinHeap α) (e : α) (allocates : Bool) :
    Option (MinHeap α × Int) :=
  let (s, ret) := s.reserve (s.n + 1) allocates
  if ret ≠ 0 then
    some (s, -1)
  else do
    let cells ← s.setIdx elem e (-1)
    let cells ← cells.shiftUp elem s.n e
    some ({ toCells := cells, n := s.n + 1 }, 0)

def pop (elem : Element α) (s : MinHeap α) : Option (MinHeap α × Option α) :=
  if s.n ≠ 0 then do
    let e ← s.read 0
    let last ← s.read (s.n - 1)
    let cells ← s.shiftDown elem (s.n - 1) 0 last
    let cells ← cells.setIdx elem e (-1)
    some ({ toCells := cells, n := s.n - 1 }, some e)
  else
    some (s, none)

/-- The last element goes to the place of `e`, from there up or down. An index of -1 says
that `e` is not in the heap; `--s->n` of an empty heap is outside the array. -/
def erase (elem : Element α) (s : MinHeap α) (e : α) : Option (MinHeap α × Int) :=
  if elem.live e then
    if s.idx e ≠ -1 then do
      let last ← (if s.n = 0 then none else s.read (s.n - 1))
      let hole := (s.idx e).toNat
      let up ← (if 0 < s.idx e then (s.read (parent hole)).bind (elem.elemGreater · last)
        else some false)
      let cells ← (if up then s.shiftUp elem hole last
        else s.shiftDown elem (s.n - 1) hole last)
      let cells ← cells.setIdx elem e (-1)
      some ({ toCells := cells, n := s.n - 1 }, 0)
    else
      some (s, -1)
  else
    none

/-- A heap with elements is smaller after a pop. -/
theorem pop_lt {s : MinHeap α} (occupied : s.isEmpty = false)
    (pops : s.pop elem = some (popped, e)) : popped.n < s.n := by
  have nonempty : s.n ≠ 0 := of_decide_eq_false occupied
  rw [pop, if_pos nonempty] at pops
  simp only [Option.bind_eq_bind, Option.bind_eq_some_iff, Option.some.injEq,
    Prod.mk.injEq] at pops
  obtain ⟨_, _, _, _, _, _, _, _, rfl, _⟩ := pops
  exact Nat.sub_one_lt nonempty

end MinHeap

end TcpCongestion
