import Mathlib.Data.Nat.Digits.Lemmas

/-! Fixed-width byte images of natural numbers, least significant byte first.
A value of `width` bytes is what a little-endian machine keeps in memory for an
unsigned integer of that size, and reversing the image is what a byte swap
does. Nothing here is about one program. -/
namespace TcpCongestion.LittleEndian

/-- The `width` low bytes of a number, least significant first. -/
def image : Nat → Nat → List UInt8
  | 0, _ => []
  | width + 1, value => UInt8.ofNat value :: image width (value / 256)

/-- The number whose image these bytes are. -/
def valueOf (bytes : List UInt8) : Nat := Nat.ofDigits 256 (bytes.map UInt8.toNat)

@[simp] theorem image_length (width value : Nat) : (image width value).length = width := by
  induction width generalizing value with
  | zero => rfl
  | succ width ih => simp [image, ih]

@[simp] theorem valueOf_nil : valueOf [] = 0 := rfl

@[simp] theorem valueOf_cons (byte : UInt8) (bytes : List UInt8) :
    valueOf (byte :: bytes) = byte.toNat + 256 * valueOf bytes := by
  simp [valueOf, Nat.ofDigits_cons]

theorem valueOf_append (low high : List UInt8) :
    valueOf (low ++ high) = valueOf low + 256 ^ low.length * valueOf high := by
  simp [valueOf, Nat.ofDigits_append]

theorem valueOf_zeros (count : Nat) : valueOf (List.replicate count 0) = 0 := by
  induction count with
  | zero => rfl
  | succ count ih => simp [List.replicate_succ, ih]

/-- Reading an image back keeps the value up to its width. -/
theorem valueOf_image (width value : Nat) : valueOf (image width value) = value % 256 ^ width := by
  induction width generalizing value with
  | zero => simp [image, Nat.mod_one]
  | succ width ih =>
    rw [image, valueOf_cons, ih, Nat.pow_succ', Nat.mod_mul]
    simp

/-- The image of the number some bytes denote is those bytes again. -/
theorem image_valueOf (bytes : List UInt8) : image bytes.length (valueOf bytes) = bytes := by
  induction bytes with
  | nil => rfl
  | cons byte bytes ih =>
    have bound := byte.toNat_lt
    have high : (byte.toNat + 256 * valueOf bytes) / 256 = valueOf bytes := by omega
    have low : UInt8.ofNat (byte.toNat + 256 * valueOf bytes) = byte := by
      apply UInt8.toNat_inj.mp
      rw [UInt8.toNat_ofNat']
      omega
    rw [List.length_cons, valueOf_cons, image, high, low, ih]

theorem valueOf_lt (bytes : List UInt8) : valueOf bytes < 256 ^ bytes.length := by
  have back := valueOf_image bytes.length (valueOf bytes)
  rw [image_valueOf] at back
  rw [back]
  exact Nat.mod_lt _ (Nat.pow_pos (by decide))

/-- A shorter image is a prefix of a longer one. -/
theorem image_take (count width value : Nat) (within : count ≤ width) :
    (image width value).take count = image count value := by
  induction count generalizing width value with
  | zero => simp [image]
  | succ count ih =>
    cases width with
    | zero => omega
    | succ width => simp [image, ih width (value / 256) (by omega)]

/-- Only the low bytes of a number reach its image. -/
theorem image_mod (width value : Nat) : image width (value % 256 ^ width) = image width value := by
  have back := image_valueOf (image width value)
  rwa [image_length, valueOf_image] at back

/-- An unsigned machine integer, by its size in bytes and its conversions. -/
structure Unsigned (α : Type) where
  width : Nat
  width_le : width ≤ 8
  ofNat : Nat → α
  toNat : α → Nat
  toNat_ofNat (n : Nat) : toNat (ofNat n) = n % 256 ^ width
  ofNat_toNat (x : α) : ofNat (toNat x) = x

namespace Unsigned

variable (type : Unsigned α)

/-- What `sizeof` says. -/
def size : UInt32 := UInt32.ofNat type.width

@[simp] theorem size_toNat : type.size.toNat = type.width := by
  have few := type.width_le
  rw [size, UInt32.toNat_ofNat', Nat.mod_eq_of_lt (by omega)]

theorem toNat_mod (x : α) : type.toNat x % 256 ^ type.width = type.toNat x := by
  rw [← type.toNat_ofNat, type.ofNat_toNat]

end Unsigned

def uint16 : Unsigned UInt16 where
  width := 2
  width_le := by decide
  ofNat := UInt16.ofNat
  toNat := UInt16.toNat
  toNat_ofNat _ := UInt16.toNat_ofNat'
  ofNat_toNat _ := UInt16.ofNat_toNat

def uint32 : Unsigned UInt32 where
  width := 4
  width_le := by decide
  ofNat := UInt32.ofNat
  toNat := UInt32.toNat
  toNat_ofNat _ := UInt32.toNat_ofNat'
  ofNat_toNat _ := UInt32.ofNat_toNat

def uint64 : Unsigned UInt64 where
  width := 8
  width_le := by decide
  ofNat := UInt64.ofNat
  toNat := UInt64.toNat
  toNat_ofNat _ := UInt64.toNat_ofNat'
  ofNat_toNat _ := UInt64.ofNat_toNat

end TcpCongestion.LittleEndian
