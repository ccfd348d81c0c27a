import TcpCongestion.MinHeap32Proofs
import TcpCongestion.Runs

/-! Any sequence of pushes, pops and erasures a caller may make of the heap. It goes
through without an access outside the array, the array stays a heap whose elements have
their places, and each call adds or takes out exactly one element. -/
namespace TcpCongestion.HeapRuns

open HeapOrder Runs Words MinHeap32

variable {α κ : Type} [LinearOrder κ] {key : α → κ}

/-- Elements that stay there and compare by a key that does not change. -/
def ofKey (key : α → κ) : Element α where
  greater x y := decide (key y < key x)
  live _ := true

private theorem ofKey_compares (key : α → κ) :
    (ofKey key).Compares key := fun _ _ => decide_eq_true_iff

/-- A heap and the elements that were popped from it or erased. -/
structure Use (α : Type) where
  heap : MinHeap32 α
  out : List α

inductive Call (α : Type) where
  | push (e : α)
  | pop
  | erase (e : α)

/-- The calls a caller may make: to push what is not in the heap while it has fewer than
2^31 elements, and to erase what is in it or is marked as not in it. -/
def Allowed (s : Use α) : Call α → Prop
  | .push e => e ∉ s.heap.elements ∧ s.heap.n.toNat + 1 < 2 ^ 31
  | .pop => True
  | .erase e => e ∈ s.heap.elements ∨ s.heap.idx e = -1

instance [DecidableEq α] (s : Use α) : (call : Call α) → Decidable (Allowed s call)
  | .push e => inferInstanceAs (Decidable (e ∉ s.heap.elements ∧ s.heap.n.toNat + 1 < 2 ^ 31))
  | .pop => inferInstanceAs (Decidable True)
  | .erase e => inferInstanceAs (Decidable (e ∈ s.heap.elements ∨ s.heap.idx e = -1))

def step [DecidableEq α] (key : α → κ) (s : Use α) : Call α → Option (Use α)
  | .push e => (s.heap.push (ofKey key) e true).map fun (heap, _) => { s with heap := heap }
  | .pop => (s.heap.pop (ofKey key)).map fun (heap, e) => { heap := heap, out := e.toList ++ s.out }
  | .erase e => (s.heap.erase (ofKey key) e).map fun (heap, ret) =>
      { heap := heap, out := if ret = 0 then e :: s.out else s.out }

def start (memory : Nat → α) (idx : α → Int32) : Use α := { heap := ctor memory idx, out := [] }

/-- The representation of the heap. -/
structure Represented (key : α → κ) (s : Use α) : Prop where
  index : ∀ i, i < s.heap.n.toNat → (s.heap.idx (s.heap.p i)).toInt = i
  order : ∀ i, i < s.heap.n.toNat →
    (ofKey key).greater (s.heap.p (parent i)) (s.heap.p i) = false
  out : ∀ e ∈ s.out, e ∉ s.heap.elements → s.heap.idx e = -1
  room : s.heap.n ≤ s.heap.a

/-- What each call returns and what it does to the elements. -/
structure Answers [DecidableEq α] (key : α → κ) (heap : MinHeap32 α) : Prop where
  push : ∀ e, e ∉ heap.elements → heap.n.toNat + 1 < 2 ^ 31 →
    ∃ next, heap.push (ofKey key) e true = some (next, 0) ∧ next.elements = e ::ₘ heap.elements
  pop : heap.n ≠ 0 → ∃ next e, heap.pop (ofKey key) = some (next, some e) ∧
    heap.elements = e ::ₘ next.elements ∧ ∀ x ∈ heap.elements, (ofKey key).greater e x = false
  popEmpty : heap.n = 0 → heap.pop (ofKey key) = some (heap, none)
  erase : ∀ e, e ∈ heap.elements → ∃ next, heap.erase (ofKey key) e = some (next, 0) ∧
    heap.elements = e ::ₘ next.elements
  eraseOut : ∀ e, heap.idx e = -1 → heap.erase (ofKey key) e = some (heap, -1)

/-- What holds between calls. -/
structure HeapInv (key : α → κ) (s : Use α) : Prop where
  valid : s.heap.wide.Valid (ofKey key) key
  small : s.heap.n.toNat < 2 ^ 31
  indexed : s.heap.wide.Indexed s.heap.n.toNat
  out : ∀ e ∈ s.out, e ∉ s.heap.elements → s.heap.idx e = -1

private theorem start_inv (memory : Nat → α) (idx : α → Int32) :
    HeapInv key (start memory idx) where
  valid := MinHeap.ctor_valid (ofKey key) key memory _
  small := Nat.two_pow_pos 31
  indexed := fun _ inside => absurd inside (Nat.not_lt_zero _)
  out := fun _ member => absurd member List.not_mem_nil

section Calls

variable {s : Use α}

private theorem HeapInv.represented (inv : HeapInv key s) : Represented key s where
  index := inv.indexed
  order := by
    intro i inside
    rw [Bool.eq_false_iff]
    intro greater
    have less := (ofKey_compares key _ _).mp greater
    rcases Nat.eq_zero_or_pos i with rfl | positive
    · exact lt_irrefl _ less
    · exact not_lt.mpr (inv.valid.ordered i positive inside) less
  out := inv.out
  room := UInt32.le_iff_toNat_le.mpr inv.valid.room

variable [DecidableEq α]

private theorem HeapInv.push (inv : HeapInv key s) (new : e ∉ s.heap.elements)
    (room : s.heap.n.toNat + 1 < 2 ^ 31) :
    ∃ next, s.heap.push (ofKey key) e true = some (next, 0) ∧
      next.elements = e ::ₘ s.heap.elements ∧ HeapInv key { s with heap := next } := by
  obtain ⟨_, pushes, kept, added⟩ := MinHeap.push_spec (ofKey_compares key) inv.valid
    (show (ofKey key).live e = true from rfl)
  obtain ⟨next, narrow, rfl⟩ := push_narrow room pushes
  obtain ⟨indexed, others⟩ := MinHeap.push_indexed inv.indexed new pushes
  have size : next.n.toNat = s.heap.n.toNat + 1 := by
    rw [← card_elements, ← card_elements, show next.elements = _ from added, Multiset.card_cons]
    rfl
  refine ⟨next, narrow, added, kept, by dsimp only; omega, indexed, fun x member absent => ?_⟩
  have apart : x ≠ e ∧ x ∉ s.heap.elements := by
    rw [show next.elements = _ from added, Multiset.mem_cons, not_or] at absent
    exact absent
  have same : (next.idx x).toInt = (s.heap.idx x).toInt := others x apart.1 apart.2
  exact (Int32.toInt_inj.mp same).trans (inv.out x member apart.2)

/-- What is left when one element was taken out and marked. -/
theorem HeapInv.without {next : MinHeap32 α} (inv : HeapInv key s)
    (kept : next.wide.Valid (ofKey key) key) (size : next.wide.n + 1 = s.heap.wide.n)
    (without : s.heap.wide.Without e next.wide) :
    HeapInv key { heap := next, out := e :: s.out } := by
  have fewer : next.n.toNat + 1 = s.heap.n.toNat := size
  have small := inv.small
  refine ⟨kept, by dsimp only; omega, without.indexed, fun x member absent => ?_⟩
  apply toInt_eq_neg_one.mp
  by_cases taken : x = e
  · rw [taken]
    exact without.marked
  · have before : x ∉ s.heap.elements := by
      rw [show s.heap.elements = _ from without.elements, Multiset.mem_cons, not_or]
      exact ⟨taken, absent⟩
    have old := inv.out x ((List.mem_cons.mp member).resolve_left taken) before
    exact (without.others x before).trans (toInt_eq_neg_one.mpr old)

private theorem HeapInv.pop (inv : HeapInv key s) (nonempty : s.heap.n ≠ 0) :
    ∃ next e, s.heap.pop (ofKey key) = some (next, some e) ∧
      s.heap.elements = e ::ₘ next.elements ∧
      (∀ x ∈ s.heap.elements, (ofKey key).greater e x = false) ∧
      HeapInv key { heap := next, out := e :: s.out } := by
  obtain ⟨_, pops, kept, size, without⟩ := MinHeap.pop_without (ofKey_compares key) inv.valid
    inv.indexed (mt wide_n_eq_zero.mp nonempty)
  obtain ⟨next, narrow, rfl⟩ := pop_narrow inv.small pops
  refine ⟨next, _, narrow, without.elements, fun x member => ?_, inv.without kept size without⟩
  rw [Bool.eq_false_iff]
  intro greater
  exact not_lt.mpr (inv.valid.top_le member) ((ofKey_compares key _ _).mp greater)

private theorem HeapInv.erase (inv : HeapInv key s) (member : e ∈ s.heap.elements) :
    ∃ next, s.heap.erase (ofKey key) e = some (next, 0) ∧
      s.heap.elements = e ::ₘ next.elements ∧ HeapInv key { heap := next, out := e :: s.out } := by
  obtain ⟨hole, inside, rfl⟩ := mem_contents.mp member
  obtain ⟨_, erases, kept, size, without⟩ := MinHeap.erase_without (ofKey_compares key) inv.valid
    inv.indexed inside
  have place : (s.heap.idx (s.heap.p hole)).toInt = hole := inv.indexed hole inside
  have held : 0 ≤ (s.heap.idx (s.heap.p hole)).toInt ∧
      (s.heap.idx (s.heap.p hole)).toInt < s.heap.n.toNat := by omega
  obtain ⟨next, narrow, rfl⟩ := erase_narrow inv.small held erases
  exact ⟨next, narrow, without.elements, inv.without kept size without⟩

private theorem erase_out (key : α → κ) (heap : MinHeap32 α) (out : heap.idx e = -1) :
    heap.erase (ofKey key) e = some (heap, -1) := by
  rw [MinHeap32.erase, if_pos (show (ofKey key).live e = true from rfl), if_neg (not_not.mpr out)]

private theorem pop_empty (key : α → κ) (heap : MinHeap32 α) (empty : heap.n = 0) :
    heap.pop (ofKey key) = some (heap, none) := if_neg (not_not.mpr empty)

private theorem HeapInv.answers (inv : HeapInv key s) : Answers key s.heap where
  push := by
    intro e new room
    obtain ⟨next, pushes, added, -⟩ := inv.push new room
    exact ⟨next, pushes, added⟩
  pop := by
    intro nonempty
    obtain ⟨next, e, pops, split, least, -⟩ := inv.pop nonempty
    exact ⟨next, e, pops, split, least⟩
  popEmpty := pop_empty key s.heap
  erase := by
    intro e member
    obtain ⟨next, erases, split, -⟩ := inv.erase member
    exact ⟨next, erases, split⟩
  eraseOut := fun _ => erase_out key s.heap

private theorem step_possible (inv : HeapInv key s) (allowed : Allowed s call) :
    ∃ next, step key s call = some next ∧ HeapInv key next := by
  cases call with
  | push e =>
    obtain ⟨next, pushes, -, kept⟩ := inv.push allowed.1 allowed.2
    exact ⟨_, by rw [step, pushes]; rfl, kept⟩
  | pop =>
    by_cases empty : s.heap.n = 0
    · exact ⟨s, by rw [step, pop_empty key s.heap empty]; rfl, inv⟩
    · obtain ⟨next, e, pops, -, -, kept⟩ := inv.pop empty
      exact ⟨_, by rw [step, pops]; rfl, kept⟩
  | erase e =>
    rcases allowed with member | out
    · obtain ⟨next, erases, -, kept⟩ := inv.erase member
      exact ⟨_, by rw [step, erases]; rfl, kept⟩
    · exact ⟨s, by rw [step, erase_out key s.heap out]; rfl, inv⟩

end Calls

/-- Every sequence of allowed calls goes through, with no access outside the array, to a
heap in which each element has its place and is not below its parent, and from which the
next call takes or gets exactly the element it should. -/
theorem heap_represented [DecidableEq α] (key : α → κ) (memory : Nat → α) (idx : α → Int32)
    (calls : List (Call α)) (allowed : Along (step key) Allowed (start memory idx) calls) :
    ∃ s, run (step key) (start memory idx) calls = some s ∧ Represented key s ∧
      Answers key s.heap := by
  obtain ⟨s, ran, inv⟩ := run_of_along (start_inv memory idx)
    (fun _ _ inv allowed => step_possible inv allowed) allowed
  exact ⟨s, ran, inv.represented, inv.answers⟩

/-- Seven pushes, an erasure that carries the last element up, a pop, and the erasures of
the last element and of the popped one. -/
def busyCalls : List (Call Nat) :=
  [.push 1, .push 10, .push 2, .push 11, .push 12, .push 3, .push 4, .erase 11, .pop, .erase 12,
    .erase 1]

theorem busyCalls_represented : ∃ s,
    run (step id) (start (fun _ => 0) fun _ => 0) busyCalls = some s ∧ Represented id s ∧
      Answers id s.heap :=
  heap_represented id _ _ busyCalls (by decide +kernel)

end TcpCongestion.HeapRuns
