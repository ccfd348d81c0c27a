import TcpCongestion.MinHeap
import TcpCongestion.Words

/-! The heap of `base/min_heap.h` with the integers it is written in: `unsigned` sizes
and array positions, and an `int` for `min_heap_idx`. A `none` is what it is for the heap
without bounds. -/
namespace TcpCongestion

open HeapOrder Words

structure Cells32 (α : Type) where
  p : Nat → α
  a : UInt32
  idx : α → Int32

structure MinHeap32 (α : Type) extends Cells32 α where
  n : UInt32

theorem toNat_parent {hole : UInt32} (below : hole ≠ 0) :
    ((hole - 1) / 2).toNat = parent hole.toNat := by
  rw [UInt32.toNat_div, toNat_pred below]
  rfl

variable {α : Type} [DecidableEq α]

namespace Cells32

def setIdx (elem : Element α) (s : Cells32 α) (e : α) (position : Int32) : Option (Cells32 α) :=
  if elem.live e then some { s with idx := Function.update s.idx e position } else none

def read (s : Cells32 α) (i : UInt32) : Option α :=
  if i < s.a then some (s.p i.toNat) else none

/-- `(s->p[i] = e)->min_heap_idx = i`. -/
def place (elem : Element α) (s : Cells32 α) (i : UInt32) (e : α) : Option (Cells32 α) :=
  if i < s.a then { s with p := Function.update s.p i.toNat e }.setIdx elem e i.toInt32 else none

/-- The parent of position 0 is computed and wraps around, but it is not read. -/
def shiftUp (elem : Element α) (s : Cells32 α) (hole : UInt32) (e : α) : Option (Cells32 α) :=
  let parent := (hole - 1) / 2
  if hole = 0 then
    s.place elem hole e
  else do
    let above ← s.read parent
    if ← elem.elemGreater above e then
      let s ← s.place elem hole above
      s.shiftUp elem parent e
    else
      s.place elem hole e
termination_by hole.toNat
decreasing_by
  rw [toNat_parent ‹hole ≠ 0›]
  exact parent_lt (Nat.pos_of_ne_zero (mt toNat_eq_zero.mp ‹hole ≠ 0›))

/-- `min_child -= min_child == s->n || ...`. -/
def minChild (elem : Element α) (s : Cells32 α) (n minChild : UInt32) : Option UInt32 :=
  if minChild = n then
    some (minChild - 1)
  else do
    let right ← s.read minChild
    let left ← s.read (minChild - 1)
    if ← elem.elemGreater right left then
      some (minChild - 1)
    else
      some minChild

/-- A `none` is also a child that is not below its hole, as when `2 * (hole + 1)` wraps
around. -/
def shiftDown (elem : Element α) (s : Cells32 α) (n hole : UInt32) (e : α) :
    Option (Cells32 α) :=
  if 2 * (hole + 1) ≤ n then do
    let child ← s.minChild elem n (2 * (hole + 1))
    let below ← s.read child
    if ← elem.elemGreater e below then
      let s ← s.place elem hole below
      if hole < child then s.shiftDown elem n child e else none
    else
      s.place elem hole e
  else
    s.place elem hole e
termination_by UInt32.size - hole.toNat
decreasing_by
  have bound := child.toNat_lt
  have deeper := UInt32.lt_iff_toNat_lt.mp ‹hole < child›
  simp only [UInt32.size]
  omega

end Cells32

namespace MinHeap32

def ctor (memory : Nat → α) (idx : α → Int32) : MinHeap32 α :=
  { p := memory, n := 0, a := 0, idx := idx }

def isEmpty (s : MinHeap32 α) : Bool := s.n = 0

def top (s : MinHeap32 α) : Option (Option α) :=
  if s.n ≠ 0 then (s.read 0).map some else some none

/-- `allocates` is whether `realloc` finds the memory. -/
def reserve (s : MinHeap32 α) (n : UInt32) (allocates : Bool) : MinHeap32 α × Int32 :=
  if s.a < n then
    let a := if s.a ≠ 0 then s.a * 2 else 8
    let a := if a < n then n else a
    if allocates then ({ s with a := a }, 0) else (s, -1)
  else
    (s, 0)

def push (elem : Element α) (s : MinHeap32 α) (e : α) (allocates : Bool) :
    Option (MinHeap32 α × Int32) :=
  let (s, ret) := s.reserve (s.n + 1) allocates
  if ret ≠ 0 then
    some (s, -1)
  else do
    let cells ← s.setIdx elem e (-1)
    let cells ← cells.shiftUp elem s.n e
    some ({ toCells32 := cells, n := s.n + 1 }, 0)

def pop (elem : Element α) (s : MinHeap32 α) : Option (MinHeap32 α × Option α) :=
  if s.n ≠ 0 then do
    let e ← s.read 0
    let last ← s.read (s.n - 1)
    let cells ← s.shiftDown elem (s.n - 1) 0 last
    let cells ← cells.setIdx elem e (-1)
    some ({ toCells32 := cells, n := s.n - 1 }, some e)
  else
    some (s, none)

def erase (elem : Element α) (s : MinHeap32 α) (e : α) : Option (MinHeap32 α × Int32) :=
  if elem.live e then
    if s.idx e ≠ -1 then do
      let last ← s.read (s.n - 1)
      let parent := ((s.idx e - 1) / 2).toUInt32
      let up ← (if 0 < s.idx e then (s.read parent).bind (elem.elemGreater · last)
        else some false)
      let hole := (s.idx e).toUInt32
      let cells ← (if up then s.shiftUp elem hole last
        else s.shiftDown elem (s.n - 1) hole last)
      let cells ← cells.setIdx elem e (-1)
      some ({ toCells32 := cells, n := s.n - 1 }, 0)
    else
      some (s, -1)
  else
    none

end MinHeap32

end TcpCongestion
