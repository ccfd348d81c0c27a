import Mathlib.Data.Vector.Basic

/-! Feedback shift registers. A term of the sequence depends on three of the `n` terms before
it; an array holds `n` terms in a row, and one sweep over it puts the next `n` terms in their
stead. Below, the steps that mix the bits of a term and lose nothing of it. -/
namespace TcpCongestion.ShiftRegister

/-- The order of the recurrence and the place of the third term it reads. -/
structure Lags where
  n : Nat
  m : Nat
  one_lt : 1 < n
  m_pos : 0 < m
  m_lt : m < n

section Recurrence

variable {α : Type} (lags : Lags) (f : α → α → α → α)

/-- The sequence that begins with `cells`. -/
def stream (cells : Vector α lags.n) (k : Nat) : α :=
  if h : k < lags.n then cells[k]
  else
    have := lags.one_lt
    have := lags.m_lt
    f (stream cells (k - lags.n)) (stream cells (k - lags.n + 1)) (stream cells (k - lags.n + lags.m))
termination_by k
decreasing_by all_goals omega

variable {lags} {f}

theorem stream_inside (cells : Vector α lags.n) (inside : k < lags.n) :
    stream lags f cells k = cells[k] := by
  rw [stream, dif_pos inside]

theorem stream_add (cells : Vector α lags.n) (k : Nat) :
    stream lags f cells (k + lags.n) =
      f (stream lags f cells k) (stream lags f cells (k + 1)) (stream lags f cells (k + lags.m)) := by
  rw [stream, dif_neg (by omega), Nat.add_sub_cancel]

/-- Sequences of one recurrence that agree on `n` terms in a row agree from there on. -/
theorem stream_window {first second : Vector α lags.n} {a b : Nat}
    (same : ∀ i, i < lags.n → stream lags f first (a + i) = stream lags f second (b + i))
    (i : Nat) : stream lags f first (a + i) = stream lags f second (b + i) := by
  have := lags.one_lt
  have := lags.m_lt
  induction i using Nat.strong_induction_on with
  | _ i ih =>
    by_cases inside : i < lags.n
    · exact same i inside
    · obtain ⟨j, rfl⟩ : ∃ j, i = j + lags.n := ⟨i - lags.n, by omega⟩
      rw [← Nat.add_assoc, ← Nat.add_assoc, stream_add, stream_add, Nat.add_assoc a, Nat.add_assoc b,
        Nat.add_assoc a, Nat.add_assoc b, ih j (by omega), ih (j + 1) (by omega),
        ih (j + lags.m) (by omega)]

/-- Where a term gives back one part of the term `n` before it and the other part of the one
after that, sequences that agree from some place on agree from their second term on. -/
theorem stream_back {first second : Vector α lags.n} (high : α → β) (low : α → γ)
    (parts : ∀ u l u' l' later, f u l later = f u' l' later → high u = high u' ∧ low l = low l')
    (whole : ∀ a b, high a = high b → low a = low b → a = b) (wide : 1 < lags.m)
    (same : ∀ k, place ≤ k → stream lags f first k = stream lags f second k) (k : Nat) (later : 0 < k) :
    stream lags f first k = stream lags f second k := by
  have large := lags.one_lt
  -- `back` counts the terms between `k` and the place from which they are known to agree.
  suffices reached : ∀ back k, 0 < k → place ≤ k + back →
      stream lags f first k = stream lags f second k from reached place k later (by omega)
  intro back
  induction back with
  | zero => exact fun k _ beyond => same k beyond
  | succ back ih =>
    intro k later near
    have onward (i : Nat) (after : k < i) : stream lags f first i = stream lags f second i :=
      ih i (by omega) (by omega)
    have fed (i : Nat) (far : k < i + lags.m) (farther : k < i + lags.n) :
        high (stream lags f first i) = high (stream lags f second i) ∧
          low (stream lags f first (i + 1)) = low (stream lags f second (i + 1)) := by
      have term := onward (i + lags.n) farther
      rw [stream_add, stream_add, onward (i + lags.m) far] at term
      exact parts _ _ _ _ _ term
    obtain ⟨i, rfl⟩ : ∃ i, k = i + 1 := ⟨k - 1, by omega⟩
    exact whole _ _ (fed (i + 1) (by omega) (by omega)).1 (fed i (by omega) (by omega)).2

/-- The cells hold the terms from `base` on. -/
def Holds (x : Nat → α) (base : Nat) (cells : Vector α n) : Prop :=
  ∀ i (inside : i < n), cells[i] = x (base + i)

/-- An array in the middle of a sweep: the first `done` cells hold terms of the next block. -/
def Swept (x : Nat → α) (base done : Nat) (cells : Vector α n) : Prop :=
  ∀ i (inside : i < n), cells[i] = if i < done then x (base + n + i) else x (base + i)

theorem Holds.swept {x : Nat → α} {cells : Vector α n} (holds : Holds x base cells) :
    Swept x base 0 cells :=
  fun i inside => holds i inside

theorem Swept.holds {x : Nat → α} {cells : Vector α n} (swept : Swept x base n cells) :
    Holds x (base + n) cells := by
  intro i inside
  rw [swept i inside, if_pos inside]

/-- One cell of the sweep. The cells it reads, taken around the end of the array, hold the
terms the recurrence needs: of this block above the cell, of the next below it. -/
theorem Swept.step {start cells : Vector α lags.n}
    (swept : Swept (stream lags f start) base done cells) (second third : Nat)
    (inside : done < lags.n) (secondIn : second < lags.n) (thirdIn : third < lags.n)
    (next : second = done + 1 ∨ second + lags.n = done + 1)
    (later : third = done + lags.m ∨ third + lags.n = done + lags.m) :
    Swept (stream lags f start) base (done + 1)
      (cells.set done (f cells[done] cells[second] cells[third])) := by
  have large := lags.one_lt
  have behind := lags.m_pos
  have short := lags.m_lt
  have read (i : Nat) (within : i < lags.n) (k : Nat) (near : k < lags.n)
      (place : i = done + k ∨ i + lags.n = done + k) :
      cells[i] = stream lags f start (base + done + k) := by
    rw [swept i within]
    split
    · congr 1
      omega
    · congr 1
      omega
  have fed : f cells[done] cells[second] cells[third] = stream lags f start (base + lags.n + done) := by
    rw [read done inside 0 (by omega) (.inl rfl), read second secondIn 1 large next,
      read third thirdIn lags.m short later, Nat.add_zero,
      Nat.add_right_comm base lags.n, stream_add]
  intro i within
  rw [Vector.getElem_set]
  split
  · next same =>
    subst same
    rw [fed, if_pos (Nat.lt_succ_self _)]
  · next other =>
    rw [swept i within]
    by_cases below : i < done
    · rw [if_pos below, if_pos (by omega)]
    · rw [if_neg below, if_neg (by omega)]

end Recurrence

/-- What the body of a counting loop carries from one count to the next, the loop carries to
its end. -/
theorem fold_invariant {α : Type} {P : Nat → α → Prop} (count : Nat)
    {body : (i : Nat) → i < count → α → α} {initial : α} (holds : P 0 initial)
    (kept : ∀ i (inside : i < count) now, P i now → P (i + 1) (body i inside now)) :
    P count (Nat.fold count body initial) := by
  induction count with
  | zero => exact holds
  | succ count ih =>
    rw [Nat.fold_succ]
    exact kept count (Nat.lt_succ_self count) _ (ih fun i inside => kept i (Nat.lt_succ_of_lt inside))

section Mixing

variable {w : Nat} {shift : Nat}

/-- Words are equal when each bit is settled by the bits that come before it in some order. -/
theorem eq_of_bits_settled (rank : Nat → Nat) {left right : BitVec w}
    (settled : ∀ i, i < w → (∀ j, rank j < rank i → left.getLsbD j = right.getLsbD j) →
      left.getLsbD i = right.getLsbD i) : left = right := by
  have bits (i : Nat) : left.getLsbD i = right.getLsbD i := by
    induction i using (measure rank).wf.induction with
    | _ i earlier =>
      by_cases inside : i < w
      · exact settled i inside earlier
      · rw [BitVec.getLsbD_of_ge _ _ (by omega), BitVec.getLsbD_of_ge _ _ (by omega)]
  exact BitVec.eq_of_getLsbD_eq fun i _ => bits i

/-- From the top: the shift brings only higher bits down. -/
theorem xor_shiftRight_injective (positive : 0 < shift) :
    Function.Injective fun word : BitVec w => word ^^^ (word >>> shift) := by
  intro left right same
  refine eq_of_bits_settled (w - ·) fun i inside earlier => ?_
  have bit := congrArg (·.getLsbD i) same
  simp only [BitVec.getLsbD_xor, BitVec.getLsbD_ushiftRight, earlier (shift + i) (by omega)] at bit
  exact Bool.xor_left_inj.mp bit

/-- From the bottom: the shift brings only lower bits up. -/
theorem xor_shiftLeft_and_injective (positive : 0 < shift) (mask : BitVec w) :
    Function.Injective fun word : BitVec w => word ^^^ ((word <<< shift) &&& mask) := by
  intro left right same
  refine eq_of_bits_settled id fun i _ earlier => ?_
  have bit := congrArg (·.getLsbD i) same
  simp only [BitVec.getLsbD_xor, BitVec.getLsbD_and, BitVec.getLsbD_shiftLeft] at bit
  by_cases low : i < shift
  · simpa [low] using bit
  · rw [earlier (i - shift) (by simp only [id]; omega)] at bit
    exact Bool.xor_left_inj.mp bit

/-- Two words joined at a mask come apart again. -/
theorem joined_parts {mask u l u' l' : BitVec w}
    (same : (u &&& mask) ||| (l &&& ~~~mask) = (u' &&& mask) ||| (l' &&& ~~~mask)) :
    u &&& mask = u' &&& mask ∧ l &&& ~~~mask = l' &&& ~~~mask := by
  have first (u l : BitVec w) : ((u &&& mask) ||| (l &&& ~~~mask)) &&& mask = u &&& mask := by
    ext i inside
    cases on : mask[i] <;> simp [on]
  have second (u l : BitVec w) : ((u &&& mask) ||| (l &&& ~~~mask)) &&& ~~~mask = l &&& ~~~mask := by
    ext i inside
    cases on : mask[i] <;> simp [on]
  constructor
  · rw [← first u l, same, first]
  · rw [← second u l, same, second]

theorem eq_of_parts {mask a b : BitVec w} (selected : a &&& mask = b &&& mask)
    (rest : a &&& ~~~mask = b &&& ~~~mask) : a = b := by
  have whole (a : BitVec w) : (a &&& mask) ||| (a &&& ~~~mask) = a := by
    ext i inside
    cases on : mask[i] <;> simp [on]
  rw [← whole a, selected, rest, whole]

end Mixing

end TcpCongestion.ShiftRegister
