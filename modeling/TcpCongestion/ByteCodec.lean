import Mathlib.Data.List.Basic
import TcpCongestion.LittleEndian

/-! `base/byte_codec.cc` and `base/byte_order.h` on a little-endian host: the
cursor over received bytes and the cursor over a caller's buffer. An integer's
object representation is its little-endian image, and `memcpy` moves lists of
bytes. Both cursors keep the source's 32-bit fields, so the guards subtract and
compare as the source does. -/
namespace TcpCongestion.ByteCodec
open LittleEndian

inductive Endianness where
  | networkOrder
  | hostOrder
  deriving DecidableEq, Repr

/-- `ByteSwap`: the same bytes in the opposite order. -/
def byteSwap (width value : Nat) : Nat := valueOf (image width value).reverse

/-- `HostToNet16`, `HostToNet32` and `HostToNet64` for their types, and the functions back,
which are the same on this host. -/
def hostToNet (type : Unsigned α) (x : α) : α := type.ofNat (byteSwap type.width (type.toNat x))

/-- `DataReader`. The memory at `data_` holds at least the `len_` bytes the
constructor was told about. -/
structure DataReader where
  data : List UInt8
  len : UInt32
  pos : UInt32
  endianness : Endianness
  deriving Repr

namespace DataReader

/-- `DataReader::DataReader(buf, len, endianness)`. -/
def create (data : List UInt8) (len : UInt32) (endianness : Endianness) : DataReader :=
  { data, len, pos := 0, endianness }

def isDoneReading (r : DataReader) : Bool := r.len == r.pos

/-- `len_ - pos_` is computed in 32 bits and widened afterwards. -/
def bytesRemaining (r : DataReader) : UInt64 := (r.len - r.pos).toUInt64

def canRead (r : DataReader) (bytes : UInt32) : Bool := decide (bytes ≤ r.len - r.pos)

def onFailure (r : DataReader) : DataReader := { r with pos := r.len }

/-- `ReadBytes`: the copied bytes, or nothing when the guard refuses. -/
def readBytes (r : DataReader) (size : UInt32) : Option (List UInt8) × DataReader :=
  if r.canRead size then
    (some ((r.data.drop r.pos.toNat).take size.toNat), { r with pos := r.pos + size })
  else (none, r.onFailure)

def readUInt8 (r : DataReader) : Option UInt8 × DataReader :=
  let (bytes, next) := r.readBytes 1
  (bytes.map fun bytes => UInt8.ofNat (valueOf bytes), next)

/-- `ReadUInt16`, `ReadUInt32` and `ReadUInt64` for their types. -/
def readUInt (r : DataReader) (type : Unsigned α) : Option α × DataReader :=
  let (bytes, next) := r.readBytes type.size
  (bytes.map fun bytes =>
    let result := type.ofNat (valueOf bytes)
    if r.endianness = .networkOrder then hostToNet type result else result, next)

def readUInt16 (r : DataReader) : Option UInt16 × DataReader := r.readUInt uint16

def readUInt32 (r : DataReader) : Option UInt32 × DataReader := r.readUInt uint32

def readUInt64 (r : DataReader) : Option UInt64 × DataReader := r.readUInt uint64

/-- `ReadBytesToUInt64`: the eight bytes of the zeroed result are overwritten
from their low end in host order and up to their high end in network order. -/
def readBytesToUInt64 (r : DataReader) (numLen : UInt32) : Option UInt64 × DataReader :=
  let (bytes, next) := r.readBytes numLen
  (bytes.map fun bytes =>
    if r.endianness = .hostOrder then
      UInt64.ofNat (valueOf ((bytes ++ List.replicate (8 - numLen.toNat) 0).take 8))
    else
      hostToNet uint64 (UInt64.ofNat (valueOf
        ((List.replicate (8 - numLen.toNat) 0 ++ bytes).drop (numLen.toNat - 8)))), next)

/-- `ReadStringPiece`: the guard takes the low 32 bits of `size`, the copy and
the cursor take all of it. -/
def readStringPiece (r : DataReader) (size : UInt64) : Option (List UInt8) × DataReader :=
  if r.canRead size.toUInt32 then
    (some ((r.data.drop r.pos.toNat).take size.toNat),
      { r with pos := (r.pos.toUInt64 + size).toUInt32 })
  else (none, r.onFailure)

/-- `ReadUFloat16` below its call of `ReadUInt16`: values under `1 << 12` stand
for themselves, the others shift their mantissa by the stored exponent. -/
def decodeUFloat16 (value : UInt16) : UInt64 :=
  let result := value.toUInt64
  if result < (1 : UInt64) <<< 12 then result
  else
    let exponent := (value >>> 11) - 1
    (result - exponent.toUInt64 <<< 11) <<< exponent.toUInt64

def readUFloat16 (r : DataReader) : Option UInt64 × DataReader :=
  let (value, next) := r.readUInt16
  (value.map decodeUFloat16, next)

def readStringPiece16 (r : DataReader) : Option (List UInt8) × DataReader :=
  match r.readUInt16 with
  | (none, next) => (none, next)
  | (some length, next) => next.readStringPiece length.toUInt64

end DataReader

/-- `DataWriter`. The memory at `buf_` reaches at least to the capacity the
constructor was told about, whatever is written into it. -/
structure DataWriter where
  buf : List UInt8
  pos : UInt32
  capacity : UInt32
  endianness : Endianness
  room : capacity.toNat ≤ buf.length

namespace DataWriter

/-- `DataWriter::DataWriter(buf, len, endianness)`. -/
def create (buf : List UInt8) (len : UInt32) (endianness : Endianness)
    (room : len.toNat ≤ buf.length) : DataWriter :=
  { buf, pos := 0, capacity := len, endianness, room }

def length (w : DataWriter) : UInt32 := w.pos

/-- `BeginWrite`: the offset of the destination, or nothing for `nullptr`. -/
def beginWrite (w : DataWriter) (bytes : UInt32) : Option Nat :=
  if w.pos > w.capacity then none
  else if w.capacity - w.pos < bytes then none
  else some w.pos.toNat

/-- `memcpy` of `bytes` into `buf` at an offset; memory keeps its extent. -/
def splice (buf : List UInt8) (offset : Nat) (bytes : List UInt8) : List UInt8 :=
  (buf.take offset ++ bytes ++ buf.drop (offset + bytes.length)).take buf.length

private theorem splice_length (buf : List UInt8) (offset : Nat) (bytes : List UInt8) :
    (splice buf offset bytes).length = buf.length := by
  simp only [splice, List.length_take, List.length_append, List.length_drop]
  omega

/-- `WriteBytes`: `value` is the memory the source pointer names. -/
def writeBytes (w : DataWriter) (value : List UInt8) (size : UInt32) : Bool × DataWriter :=
  match w.beginWrite size with
  | none => (false, w)
  | some offset =>
    (true, { w with
      buf := splice w.buf offset (value.take size.toNat)
      pos := w.pos + size
      room := by rw [splice_length]; exact w.room })

def writeUInt8 (w : DataWriter) (value : UInt8) : Bool × DataWriter :=
  w.writeBytes (image 1 value.toNat) 1

/-- `WriteUInt16`, `WriteUInt32` and `WriteUInt64` for their types. -/
def writeUInt (w : DataWriter) (type : Unsigned α) (value : α) : Bool × DataWriter :=
  let value := if w.endianness = .networkOrder then hostToNet type value else value
  w.writeBytes (image type.width (type.toNat value)) type.size

def writeUInt16 (w : DataWriter) (value : UInt16) : Bool × DataWriter := w.writeUInt uint16 value

def writeUInt32 (w : DataWriter) (value : UInt32) : Bool × DataWriter := w.writeUInt uint32 value

def writeUInt64 (w : DataWriter) (value : UInt64) : Bool × DataWriter := w.writeUInt uint64 value

def writeBytesToUInt64 (w : DataWriter) (numBytes : UInt32) (value : UInt64) :
    Bool × DataWriter :=
  if numBytes > 8 then (false, w)
  else if w.endianness = .hostOrder then w.writeBytes (image 8 value.toNat) numBytes
  else w.writeBytes ((image 8 (hostToNet uint64 value).toNat).drop (8 - numBytes.toNat)) numBytes

/-- `kUFloat16MaxValue`. -/
def kUFloat16MaxValue : UInt64 := ((1 : UInt64) <<< 12 - 1) <<< 30

/-- One turn of the exponent search: shift while the highest bit is at or above
`11 + offset`. -/
def shiftIfAbove : UInt16 × UInt64 → UInt16 → UInt16 × UInt64
  | (exponent, value), offset =>
    if value ≥ (1 : UInt64) <<< (11 + offset.toUInt64) then (exponent + offset, value >>> offset.toUInt64)
    else (exponent, value)

/-- `WriteUFloat16` up to the byte order: the search runs over the offsets 16, 8,
4, 2 and 1, and the hidden bit carries into the exponent field. -/
def encodeUFloat16 (value : UInt64) : UInt16 :=
  if value < (1 : UInt64) <<< 12 then value.toUInt16
  else if value ≥ kUFloat16MaxValue then 65535
  else
    let (exponent, mantissa) := [16, 8, 4, 2, 1].foldl shiftIfAbove (0, value)
    (mantissa + exponent.toUInt64 <<< 11).toUInt16

def writeUFloat16 (w : DataWriter) (value : UInt64) : Bool × DataWriter :=
  let result := encodeUFloat16 value
  let result := if w.endianness = .networkOrder then hostToNet uint16 result else result
  w.writeBytes (image 2 result.toNat) 2

end DataWriter

end TcpCongestion.ByteCodec
