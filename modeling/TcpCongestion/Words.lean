import Mathlib.Algebra.Group.Int.Defs
import Mathlib.Algebra.Group.Nat.Defs

/-! The C integers of 32 bits: what they are worth where one is taken for the other, and
where the arithmetic on them does not wrap around. -/
namespace TcpCongestion.Words

/-- An `int` that is not negative keeps its value where it is taken as unsigned. -/
theorem toUInt32_toNat (value : Int32) (nonneg : 0 ≤ value.toInt) :
    (value.toUInt32.toNat : Int) = value.toInt := by
  have signed := BitVec.toInt_eq_toNat_cond value.toBitVec
  have small := value.toBitVec.isLt
  change 0 ≤ value.toBitVec.toInt at nonneg
  change (value.toBitVec.toNat : Int) = value.toBitVec.toInt
  split at signed <;> omega

theorem toInt32_toInt (value : UInt32) :
    value.toInt32.toInt = if 2 * value.toNat < 2 ^ 32 then (value.toNat : Int)
      else value.toNat - (2 ^ 32 : Nat) :=
  BitVec.toInt_eq_toNat_cond value.toBitVec

theorem toInt32_toNat_le (value : UInt32) : value.toInt32.toInt.toNat ≤ value.toNat := by
  have bound := value.toNat_lt
  rw [toInt32_toInt]
  split <;> omega

/-- An `unsigned` below 2^31 keeps its value where it is taken as signed. -/
theorem toInt32_of_lt {value : UInt32} (small : value.toNat < 2 ^ 31) :
    value.toInt32.toInt = value.toNat := by
  rw [toInt32_toInt, if_pos (by omega)]

theorem toNat_eq_zero {value : UInt32} : value.toNat = 0 ↔ value = 0 :=
  UInt32.toNat_inj (b := 0)

theorem toInt_eq_zero {value : Int32} : value.toInt = 0 ↔ value = 0 :=
  Int32.toInt_inj (y := 0)

theorem toInt_eq_neg_one {value : Int32} : value.toInt = -1 ↔ value = -1 :=
  Int32.toInt_inj (y := -1)

theorem toNat_pred {value : UInt32} (nonzero : value ≠ 0) :
    (value - 1).toNat = value.toNat - 1 := by
  have positive : 1 ≤ value := by
    rw [UInt32.le_iff_toNat_le, UInt32.toNat_one, Nat.one_le_iff_ne_zero]
    exact mt toNat_eq_zero.mp nonzero
  exact UInt32.toNat_sub_of_le _ _ positive

theorem toNat_succ {value : UInt32} (room : value.toNat + 1 < 2 ^ 32) :
    (value + 1).toNat = value.toNat + 1 := by
  rw [UInt32.toNat_add, UInt32.toNat_one, Nat.mod_eq_of_lt room]

/-- `(i - 1) / 2` of a positive `int`. -/
theorem toInt_half_pred {value : Int32} (positive : 0 < value.toInt) :
    ((value - 1) / 2).toInt = (value.toInt - 1) / 2 := by
  have below := value.toInt_lt
  have first : (value - 1).toInt = value.toInt - 1 := by
    rw [Int32.toInt_sub, show (1 : Int32).toInt = 1 from rfl,
      Int.bmod_eq_of_le (by omega) (by omega)]
  rw [Int32.toInt_div_of_ne_right _ _ (by decide), first, show (2 : Int32).toInt = 2 from rfl,
    Int.tdiv_eq_ediv_of_nonneg (by omega)]

end TcpCongestion.Words
