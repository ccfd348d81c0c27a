import Mathlib.Algebra.Order.Ring.Nat
import Mathlib.Order.Bounds.Basic
import Mathlib.Tactic.Ring

/-! Unsigned floating-point numbers that round down. A number keeps its leading `p + 1` bits and
counts the ones it drops, at most `top` of them; the leading bit is not stored but carried into
the exponent field of the code. Nothing here is about one program. -/
namespace TcpCongestion.TruncatedFloat

variable {p top v m e n f : Nat}

/-- The representable numbers: the short ones, and `p + 1` significant bits times a power of two. -/
def grid (p top : Nat) : Set Nat :=
  {x | x < 2 ^ (p + 1) ∨ ∃ m k, 2 ^ p ≤ m ∧ m < 2 ^ (p + 1) ∧ 1 ≤ k ∧ k ≤ top ∧ x = m * 2 ^ k}

def largest (p top : Nat) : Nat := (2 ^ (p + 1) - 1) * 2 ^ top

/-- The representable numbers that are not above `v`. -/
def under (p top v : Nat) : Set Nat := {x | x ∈ grid p top ∧ x ≤ v}

/-! ## Cutting a number -/

/-- `m` is what is left of `v` when `e` bits are dropped, and has `p + 1` bits. -/
structure Cut (p v m e : Nat) : Prop where
  normal : 2 ^ p ≤ m
  short : m < 2 ^ (p + 1)
  below : m * 2 ^ e ≤ v
  above : v < (m + 1) * 2 ^ e

/-- More dropped bits make a larger number. -/
theorem scale_lt (short : m < 2 ^ (p + 1)) (normal : 2 ^ p ≤ n) (fewer : e < f) :
    (m + 1) * 2 ^ e ≤ n * 2 ^ f := by
  calc (m + 1) * 2 ^ e ≤ 2 ^ (p + 1) * 2 ^ e := Nat.mul_le_mul_right _ short
    _ = 2 ^ p * 2 ^ (e + 1) := by rw [← Nat.pow_add, ← Nat.pow_add]; congr 1; omega
    _ ≤ 2 ^ p * 2 ^ f := Nat.mul_le_mul_left _ (Nat.pow_le_pow_right (by decide) fewer)
    _ ≤ n * 2 ^ f := Nat.mul_le_mul_right _ normal

theorem Cut.exponent_le (one : Cut p v m e) (two : Cut p v n f) : e ≤ f := by
  by_contra more
  have gap := scale_lt two.short one.normal (Nat.lt_of_not_le more)
  exact absurd (Nat.lt_of_lt_of_le two.above gap) (Nat.not_lt.mpr one.below)

/-- A number can be cut in one way only. -/
theorem Cut.unique (one : Cut p v m e) (two : Cut p v n f) : m = n ∧ e = f := by
  obtain rfl := Nat.le_antisymm (one.exponent_le two) (two.exponent_le one)
  have first : m < n + 1 := Nat.lt_of_mul_lt_mul_right (Nat.lt_of_le_of_lt one.below two.above)
  have second : n < m + 1 := Nat.lt_of_mul_lt_mul_right (Nat.lt_of_le_of_lt two.below one.above)
  exact ⟨by omega, rfl⟩

theorem Cut.self (normal : 2 ^ p ≤ m) (short : m < 2 ^ (p + 1)) (e : Nat) :
    Cut p (m * 2 ^ e) m e :=
  ⟨normal, short, Nat.le_refl _, Nat.mul_lt_mul_of_pos_right (Nat.lt_succ_self m)
    (Nat.two_pow_pos e)⟩

theorem Cut.mem_grid (cut : Cut p v m e) (within : e ≤ top) : m * 2 ^ e ∈ grid p top := by
  by_cases none : e = 0
  · left
    rw [none, pow_zero, Nat.mul_one]
    exact cut.short
  · exact .inr ⟨m, e, cut.normal, cut.short, Nat.pos_of_ne_zero none, within, rfl⟩

/-- Cutting rounds down to the grid. -/
theorem Cut.isGreatest (cut : Cut p v m e) (within : e ≤ top) :
    IsGreatest (under p top v) (m * 2 ^ e) := by
  refine ⟨⟨cut.mem_grid within, cut.below⟩, ?_⟩
  -- a number with fewer dropped bits is smaller, one with as many or more is a multiple of 2^e
  have multiples : ∀ factor, factor * 2 ^ e ≤ v → factor * 2 ^ e ≤ m * 2 ^ e := by
    intro factor low
    have less : factor < m + 1 :=
      Nat.lt_of_mul_lt_mul_right (Nat.lt_of_le_of_lt low cut.above)
    exact Nat.mul_le_mul_right _ (by omega)
  rintro x ⟨short | ⟨n, f, normal, short, _, _, rfl⟩, low⟩
  · by_cases none : e = 0
    · subst none
      simpa using multiples x (by simpa using low)
    · have gap := scale_lt short cut.normal (Nat.pos_of_ne_zero none)
      rw [pow_zero, Nat.mul_one] at gap
      omega
  · by_cases fewer : f < e
    · exact Nat.le_trans (Nat.mul_le_mul_right _ (Nat.le_succ n)) (scale_lt short cut.normal fewer)
    · have power : n * 2 ^ f = n * 2 ^ (f - e) * 2 ^ e := by
        rw [Nat.mul_assoc, ← Nat.pow_add]
        congr 2
        omega
      rw [power] at low ⊢
      exact multiples _ low

/-- The error of a cut is below one part in `2 ^ p`. -/
theorem Cut.error (cut : Cut p v m e) : 2 ^ p * (v - m * 2 ^ e) ≤ v := by
  have above := cut.above
  rw [Nat.add_mul, Nat.one_mul] at above
  calc 2 ^ p * (v - m * 2 ^ e) ≤ 2 ^ p * 2 ^ e :=
        Nat.mul_le_mul_left _ (Nat.sub_le_iff_le_add'.mpr above.le)
    _ ≤ m * 2 ^ e := Nat.mul_le_mul_right _ cut.normal
    _ ≤ v := cut.below

theorem grid_le_largest (member : v ∈ grid p top) : v ≤ largest p top := by
  unfold largest
  rcases member with short | ⟨m, k, _, short, _, within, rfl⟩
  · exact Nat.le_trans (Nat.le_pred_of_lt short) (Nat.le_mul_of_pos_right _ (Nat.two_pow_pos top))
  · exact Nat.mul_le_mul (Nat.le_pred_of_lt short) (Nat.pow_le_pow_right (by decide) within)

theorem largest_normal (p : Nat) : 2 ^ p ≤ 2 ^ (p + 1) - 1 := by
  have positive := Nat.two_pow_pos p
  rw [Nat.pow_succ]
  omega

theorem largest_cut (p top : Nat) : Cut p (largest p top) (2 ^ (p + 1) - 1) top :=
  Cut.self (largest_normal p) (Nat.pred_lt (Nat.two_pow_pos _).ne') top

/-- From the largest representable number on, rounding down saturates. -/
theorem isGreatest_largest (above : largest p top ≤ v) :
    IsGreatest (under p top v) (largest p top) :=
  ⟨⟨(largest_cut p top).mem_grid (Nat.le_refl top), above⟩, fun _ member =>
    grid_le_largest member.1⟩

theorem isGreatest_short (short : v < 2 ^ (p + 1)) : IsGreatest (under p top v) v :=
  ⟨⟨.inl short, Nat.le_refl v⟩, fun _ member => member.2⟩

/-- Rounding down to a set keeps the order. -/
theorem isGreatest_mono (ordered : v ≤ w) (low : IsGreatest (under p top v) x)
    (high : IsGreatest (under p top w) y) : x ≤ y :=
  low.mono high fun _ member => ⟨member.1, Nat.le_trans member.2 ordered⟩

/-! ## Finding the exponent -/

/-- One turn of the search: drop `offset` bits if the number has them to spare. -/
def dropIfAbove (p : Nat) : Nat × Nat → Nat → Nat × Nat
  | (e, v), offset => if 2 ^ (p + offset) ≤ v then (e + offset, v / 2 ^ offset) else (e, v)

/-- The powers of two below `2 ^ count`, largest first. -/
def halvings : Nat → List Nat
  | 0 => []
  | count + 1 => 2 ^ count :: halvings count

/-- A binary search over the exponent ends with `p + 1` bits. -/
theorem search_spec (p count e v : Nat) (normal : 2 ^ p ≤ v) (small : v < 2 ^ (p + 2 ^ count)) :
    ∃ dropped, (halvings count).foldl (dropIfAbove p) (e, v) = (e + dropped, v / 2 ^ dropped) ∧
      2 ^ p ≤ v / 2 ^ dropped ∧ v / 2 ^ dropped < 2 ^ (p + 1) := by
  induction count generalizing e v with
  | zero => exact ⟨0, by simp [halvings], by simpa using normal, by simpa using small⟩
  | succ count ih =>
    rw [halvings, List.foldl_cons, dropIfAbove]
    split
    · rename_i above
      have positive : 0 < 2 ^ 2 ^ count := Nat.two_pow_pos _
      have low : 2 ^ p ≤ v / 2 ^ 2 ^ count := by
        rw [Nat.le_div_iff_mul_le positive, ← Nat.pow_add]
        exact above
      have high : v / 2 ^ 2 ^ count < 2 ^ (p + 2 ^ count) := by
        rw [Nat.div_lt_iff_lt_mul positive, ← Nat.pow_add, Nat.add_assoc, ← Nat.two_mul,
          ← Nat.pow_succ']
        exact small
      obtain ⟨dropped, found, least, most⟩ := ih (e + 2 ^ count) (v / 2 ^ 2 ^ count) low high
      rw [Nat.div_div_eq_div_mul, ← Nat.pow_add] at found least most
      exact ⟨2 ^ count + dropped, by rw [found, Nat.add_assoc], least, most⟩
    · rename_i below
      exact ih e v normal (Nat.lt_of_not_le below)

theorem Cut.of_div (normal : 2 ^ p ≤ v / 2 ^ e) (short : v / 2 ^ e < 2 ^ (p + 1)) :
    Cut p v (v / 2 ^ e) e :=
  ⟨normal, short, Nat.div_mul_le_self v _, Nat.lt_mul_of_div_lt (Nat.lt_succ_self _)
    (Nat.two_pow_pos e)⟩

/-! ## Codes -/

/-- The code of a number: itself if it is short, and otherwise the kept bits with the exponent
added above their leading bit. -/
def encode (p top count v : Nat) : Nat :=
  if v < 2 ^ (p + 1) then v
  else if largest p top ≤ v then 2 ^ (p + 1) - 1 + top * 2 ^ p
  else
    let (e, m) := (halvings count).foldl (dropIfAbove p) (0, v)
    m + e * 2 ^ p

def decode (p code : Nat) : Nat :=
  if code < 2 ^ (p + 1) then code
  else (code - (code / 2 ^ p - 1) * 2 ^ p) * 2 ^ (code / 2 ^ p - 1)

/-- The exponent field of a code is one more than the exponent. -/
theorem code_exponent (normal : 2 ^ p ≤ m) (short : m < 2 ^ (p + 1)) :
    (m + e * 2 ^ p) / 2 ^ p - 1 = e := by
  have one : m / 2 ^ p = 1 := by
    rw [Nat.pow_succ'] at short
    exact Nat.div_eq_of_lt_le (by omega) (by omega)
  rw [Nat.add_mul_div_right _ _ (Nat.two_pow_pos p), one]
  omega

theorem decode_code (normal : 2 ^ p ≤ m) (short : m < 2 ^ (p + 1)) (shifted : 1 ≤ e) :
    decode p (m + e * 2 ^ p) = m * 2 ^ e := by
  have long : ¬ m + e * 2 ^ p < 2 ^ (p + 1) := by
    have step : 1 * 2 ^ p ≤ e * 2 ^ p := Nat.mul_le_mul_right _ shifted
    rw [Nat.pow_succ']
    omega
  rw [decode, if_neg long, code_exponent normal short, Nat.add_sub_cancel]

/-- Between the short numbers and the largest one the search finds the cut. -/
theorem search_cut (range : top < 2 ^ count) (long : 2 ^ (p + 1) ≤ v) (small : v < largest p top) :
    ∃ m e, (halvings count).foldl (dropIfAbove p) (0, v) = (e, m) ∧ Cut p v m e ∧
      1 ≤ e ∧ e ≤ top := by
  have bound : largest p top < 2 ^ (p + 2 ^ count) := by
    calc largest p top < 2 ^ (p + 1) * 2 ^ top :=
          Nat.mul_lt_mul_of_pos_right (Nat.pred_lt (Nat.two_pow_pos _).ne') (Nat.two_pow_pos top)
      _ = 2 ^ (p + 1 + top) := (Nat.pow_add _ _ _).symm
      _ ≤ 2 ^ (p + 2 ^ count) := Nat.pow_le_pow_right (by decide) (by omega)
  have normal : 2 ^ p ≤ v := Nat.le_trans (Nat.pow_le_pow_right (by decide) (by omega)) long
  obtain ⟨e, found, least, most⟩ := search_spec p count 0 v normal (by omega)
  have cut := Cut.of_div least most
  refine ⟨v / 2 ^ e, e, ?_, cut, ?_, ?_⟩
  · rw [found, Nat.zero_add]
  · by_contra none
    obtain rfl : e = 0 := by omega
    rw [pow_zero, Nat.div_one] at most
    omega
  · by_contra more
    have gap := scale_lt (largest_cut p top).short cut.normal (Nat.lt_of_not_le more)
    have above := (largest_cut p top).above
    have below := cut.below
    omega

theorem encode_cut (range : top < 2 ^ count) (long : 2 ^ (p + 1) ≤ v) (small : v < largest p top) :
    ∃ m e, encode p top count v = m + e * 2 ^ p ∧ Cut p v m e ∧ 1 ≤ e ∧ e ≤ top := by
  obtain ⟨m, e, found, cut, shifted, within⟩ := search_cut range long small
  refine ⟨m, e, ?_, cut, shifted, within⟩
  rw [encode, if_neg (by omega), if_neg (by omega), found]

/-- Encoding and decoding round down to the grid. -/
theorem decode_encode (range : top < 2 ^ count) (positive : 1 ≤ top) (v : Nat) :
    IsGreatest (under p top v) (decode p (encode p top count v)) := by
  by_cases short : v < 2 ^ (p + 1)
  · rw [encode, if_pos short, decode, if_pos short]
    exact isGreatest_short short
  · by_cases saturated : largest p top ≤ v
    · have cut := largest_cut p top
      rw [encode, if_neg short, if_pos saturated, decode_code cut.normal cut.short positive]
      exact isGreatest_largest saturated
    · obtain ⟨m, e, coded, cut, shifted, within⟩ :=
        encode_cut range (Nat.le_of_not_lt short) (Nat.lt_of_not_le saturated)
      rw [coded, decode_code cut.normal cut.short shifted]
      exact cut.isGreatest within

/-- What is read is written as the same code again. -/
theorem encode_decode (range : top < 2 ^ count) (code : Nat) (valid : code < (top + 2) * 2 ^ p) :
    encode p top count (decode p code) = code := by
  by_cases short : code < 2 ^ (p + 1)
  · rw [decode, if_pos short, encode, if_pos short]
  · -- the code of a long number splits into its exponent and its `p + 1` bits
    have positive := Nat.two_pow_pos p
    obtain ⟨m, e, rfl, normal, less, shifted, within⟩ : ∃ m e, code = m + e * 2 ^ p ∧ 2 ^ p ≤ m ∧
        m < 2 ^ (p + 1) ∧ 1 ≤ e ∧ e ≤ top := by
      have split := Nat.div_add_mod code (2 ^ p)
      have rest := Nat.mod_lt code positive
      have two : 2 ≤ code / 2 ^ p := by
        rw [Nat.le_div_iff_mul_le positive, ← Nat.pow_succ']
        exact Nat.le_of_not_lt short
      have field : code / 2 ^ p < top + 2 := by rwa [Nat.div_lt_iff_lt_mul positive]
      obtain ⟨k, again⟩ := Nat.exists_eq_add_of_le' two
      rw [again] at split
      refine ⟨code % 2 ^ p + 2 ^ p, k + 1, ?_, by omega, by rw [Nat.pow_succ']; omega, by omega,
        by omega⟩
      calc code = 2 ^ p * (k + 2) + code % 2 ^ p := split.symm
        _ = code % 2 ^ p + 2 ^ p + (k + 1) * 2 ^ p := by ring
    rw [decode_code normal less shifted]
    have cut := Cut.self normal less e
    have long : ¬ m * 2 ^ e < 2 ^ (p + 1) := by
      have gap := scale_lt (m := 2 ^ (p + 1) - 1) (Nat.pred_lt (Nat.two_pow_pos _).ne') normal
        shifted
      have enough := Nat.two_pow_pos (p + 1)
      rw [pow_zero, Nat.mul_one] at gap
      omega
    by_cases saturated : largest p top ≤ m * 2 ^ e
    · have same := Nat.le_antisymm (grid_le_largest (cut.mem_grid within)) saturated
      have cut := cut
      rw [same] at cut
      obtain ⟨rfl, rfl⟩ := cut.unique (largest_cut p top)
      rw [encode, if_neg long, if_pos saturated]
    · obtain ⟨n, f, coded, other, _, _⟩ :=
        encode_cut range (Nat.le_of_not_lt long) (Nat.lt_of_not_le saturated)
      obtain ⟨rfl, rfl⟩ := cut.unique other
      exact coded

/-- Up to the largest representable number the error stays below one part in `2 ^ p`. -/
theorem decode_encode_error (range : top < 2 ^ count) (positive : 1 ≤ top)
    (within : v ≤ largest p top) : 2 ^ p * (v - decode p (encode p top count v)) ≤ v := by
  by_cases short : v < 2 ^ (p + 1)
  · rw [encode, if_pos short, decode, if_pos short]
    simp
  · by_cases saturated : largest p top ≤ v
    · have cut := largest_cut p top
      obtain rfl := Nat.le_antisymm within saturated
      rw [encode, if_neg short, if_pos saturated, decode_code cut.normal cut.short positive]
      exact cut.error
    · obtain ⟨m, e, coded, cut, shifted, _⟩ :=
        encode_cut range (Nat.le_of_not_lt short) (Nat.lt_of_not_le saturated)
      rw [coded, decode_code cut.normal cut.short shifted]
      exact cut.error

end TcpCongestion.TruncatedFloat
