import TcpCongestion.ByteCodecProofs

/-! Whole messages through `DataWriter` and back through `DataReader`. A
message is any sequence of write calls, some of which may fail half way; what
reaches the buffer is the concatenation of the successful calls' encodings, and
a reader that follows the same schema gets every value back. -/
namespace TcpCongestion.CodecRoundTrip
open LittleEndian ByteCodec ByteCodecProofs

/-- Memory handed to `WriteBytes` with its `uint32_t` size. -/
structure Blob where
  bytes : List UInt8
  bound : bytes.length < 2 ^ 32

def Blob.size (blob : Blob) : UInt32 := UInt32.ofNat blob.bytes.length

private theorem Blob.size_toNat (blob : Blob) : blob.size.toNat = blob.bytes.length := by
  rw [Blob.size, UInt32.toNat_ofNat', Nat.mod_eq_of_lt blob.bound]

/-- One call on a `DataWriter`. -/
inductive WriteOp where
  | uint8 (value : UInt8)
  | uint16 (value : UInt16)
  | uint32 (value : UInt32)
  | uint64 (value : UInt64)
  | bytes (value : Blob)
  | bytesToUInt64 (numBytes : UInt32) (value : UInt64)

def WriteOp.run (w : DataWriter) : WriteOp → Bool × DataWriter
  | .uint8 value => w.writeUInt8 value
  | .uint16 value => w.writeUInt16 value
  | .uint32 value => w.writeUInt32 value
  | .uint64 value => w.writeUInt64 value
  | .bytes value => w.writeBytes value.bytes value.size
  | .bytesToUInt64 numBytes value => w.writeBytesToUInt64 numBytes value

/-- One call on a `DataReader`. -/
inductive ReadOp where
  | uint8
  | uint16
  | uint32
  | uint64
  | bytes (size : UInt32)
  | bytesToUInt64 (numLen : UInt32)
  | ufloat16
  | stringPiece16
  deriving DecidableEq

/-- What a read call stores through its result pointer. -/
inductive ReadValue where
  | uint8 (value : UInt8)
  | uint16 (value : UInt16)
  | uint32 (value : UInt32)
  | uint64 (value : UInt64)
  | bytes (value : List UInt8)
  deriving DecidableEq

def ReadOp.run (r : DataReader) : ReadOp → Option ReadValue × DataReader
  | .uint8 => let (value, next) := r.readUInt8; (value.map .uint8, next)
  | .uint16 => let (value, next) := r.readUInt16; (value.map .uint16, next)
  | .uint32 => let (value, next) := r.readUInt32; (value.map .uint32, next)
  | .uint64 => let (value, next) := r.readUInt64; (value.map .uint64, next)
  | .bytes size => let (value, next) := r.readBytes size; (value.map .bytes, next)
  | .bytesToUInt64 numLen =>
    let (value, next) := r.readBytesToUInt64 numLen
    (value.map .uint64, next)
  | .ufloat16 => let (value, next) := r.readUFloat16; (value.map .uint64, next)
  | .stringPiece16 => let (value, next) := r.readStringPiece16; (value.map .bytes, next)

/-- The writer after a sequence of calls, whatever each of them returned. -/
def writeAll : DataWriter → List WriteOp → DataWriter
  | w, [] => w
  | w, op :: ops => writeAll (op.run w).2 ops

/-- The calls of a sequence that returned true, in order. -/
def successful : DataWriter → List WriteOp → List WriteOp
  | _, [] => []
  | w, op :: ops =>
    if (op.run w).1 then op :: successful (op.run w).2 ops else successful (op.run w).2 ops

def readAll : DataReader → List ReadOp → List (Option ReadValue) × DataReader
  | r, [] => ([], r)
  | r, op :: ops =>
    let (value, next) := op.run r
    let (values, last) := readAll next ops
    (value :: values, last)

/-- The wire form of a call, stated without the codec: integers in the chosen
order, a partial-width integer as its low bytes, and raw bytes as they are. -/
def WriteOp.encoding (endianness : Endianness) : WriteOp → List UInt8
  | .uint8 value => [value]
  | .uint16 value => ordered endianness (image 2 value.toNat)
  | .uint32 value => ordered endianness (image 4 value.toNat)
  | .uint64 value => ordered endianness (image 8 value.toNat)
  | .bytes value => value.bytes
  | .bytesToUInt64 numBytes value => ordered endianness (image numBytes.toNat value.toNat)

/-- The only argument a write call refuses: a partial width over eight bytes. -/
def WriteOp.Allowed : WriteOp → Prop
  | .bytesToUInt64 numBytes _ => numBytes.toNat ≤ 8
  | _ => True

/-- The read call that matches a write call, and the value it must return. -/
def WriteOp.readBack : WriteOp → ReadOp × ReadValue
  | .uint8 value => (.uint8, .uint8 value)
  | .uint16 value => (.uint16, .uint16 value)
  | .uint32 value => (.uint32, .uint32 value)
  | .uint64 value => (.uint64, .uint64 value)
  | .bytes value => (.bytes value.size, .bytes value.bytes)
  | .bytesToUInt64 numBytes value =>
    (.bytesToUInt64 numBytes, .uint64 (UInt64.ofNat (value.toNat % 256 ^ numBytes.toNat)))

/-- A read schema for a written message: call by call, or a 16-bit length and
the bytes it announces together as one string piece. -/
inductive Matches : List WriteOp → List (ReadOp × ReadValue) → Prop where
  | nil : Matches [] []
  | call (op : WriteOp) (rest : Matches ops reads) : Matches (op :: ops) (op.readBack :: reads)
  | string (length : UInt16) (blob : Blob) (announced : blob.bytes.length = length.toNat)
      (rest : Matches ops reads) :
      Matches (.uint16 length :: .bytes blob :: ops) ((.stringPiece16, .bytes blob.bytes) :: reads)

private theorem writeUInt_eq_writeBytes (w : DataWriter) (type : Unsigned α) (x : α) :
    ∃ value size, w.writeUInt type x = w.writeBytes value size ∧ size.toNat ≤ value.length ∧
      value.take size.toNat = ordered w.endianness (image type.width (type.toNat x)) :=
  ⟨_, type.size, writeUInt_eq w type x, by simp, List.take_of_length_le (by simp)⟩

/-- Every call is one `WriteBytes` of the encoding, once its arguments pass. -/
theorem run_eq_writeBytes (w : DataWriter) (op : WriteOp) (allowed : op.Allowed) :
    ∃ value size, op.run w = w.writeBytes value size ∧ size.toNat ≤ value.length ∧
      value.take size.toNat = op.encoding w.endianness := by
  cases op with
  | uint8 value => exact ⟨_, 1, rfl, by simp, by simp [WriteOp.encoding, image]⟩
  | uint16 value => exact writeUInt_eq_writeBytes w uint16 value
  | uint32 value => exact writeUInt_eq_writeBytes w uint32 value
  | uint64 value => exact writeUInt_eq_writeBytes w uint64 value
  | bytes value =>
    exact ⟨_, _, rfl, by simp [Blob.size_toNat], by simp [WriteOp.encoding, Blob.size_toNat]⟩
  | bytesToUInt64 numBytes value =>
    have small : numBytes.toNat ≤ 8 := allowed
    have accepted : ¬ numBytes > 8 := by
      rw [gt_iff_lt, UInt32.lt_iff_toNat_lt]
      exact Nat.not_lt.mpr small
    have low := ordered_image_partial w.endianness numBytes.toNat value.toNat small
    cases order : w.endianness with
    | networkOrder =>
      have swapped : image 8 (hostToNet uint64 value).toNat =
          ordered .networkOrder (image 8 value.toNat) := image_hostToNet uint64 .networkOrder value
      refine ⟨(image 8 (hostToNet uint64 value).toNat).drop (8 - numBytes.toNat), numBytes,
        by simp [WriteOp.run, DataWriter.writeBytesToUInt64, accepted, order], by simp; omega, ?_⟩
      rw [order] at low
      rw [swapped, WriteOp.encoding, ← low]
      apply List.take_of_length_le
      simp
      omega
    | hostOrder =>
      rw [order] at low
      exact ⟨image 8 value.toNat, numBytes,
        by simp [WriteOp.run, DataWriter.writeBytesToUInt64, accepted, order], by simpa using small,
        low⟩

/-- What one call does: it fails and changes nothing when its argument is
refused or the encoding does not fit, and otherwise appends the encoding. -/
theorem run_spec (op : WriteOp) (wrote : Wrote origin w written) :
    (op.Allowed ∧ written.length + (op.encoding w.endianness).length ≤ w.capacity.toNat →
      ∃ next, op.run w = (true, next) ∧ Wrote origin next (written ++ op.encoding w.endianness) ∧
        next.capacity = w.capacity ∧ next.endianness = w.endianness) ∧
    (¬ (op.Allowed ∧ written.length + (op.encoding w.endianness).length ≤ w.capacity.toNat) →
      op.run w = (false, w)) := by
  by_cases allowed : op.Allowed
  · obtain ⟨value, size, shape, source, piece⟩ := run_eq_writeBytes w op allowed
    have length : (op.encoding w.endianness).length = size.toNat := by
      rw [← piece]
      exact List.length_take_of_le source
    have spec := wrote.writeBytes value size source
    rw [← shape, piece] at spec
    rw [length]
    refine ⟨fun fits => ?_, fun lacking => ?_⟩
    · rwa [if_pos fits.2] at spec
    · rwa [if_neg (fun fits => lacking ⟨allowed, fits⟩)] at spec
  · refine ⟨fun fits => absurd fits.1 allowed, fun _ => ?_⟩
    cases op with
    | bytesToUInt64 numBytes value =>
      have refused : numBytes > 8 := by
        rw [gt_iff_lt, UInt32.lt_iff_toNat_lt]
        exact Nat.lt_of_not_le allowed
      simp [WriteOp.run, DataWriter.writeBytesToUInt64, refused]
    | _ => exact absurd trivial allowed

/-- After any sequence of calls the buffer starts with what was written before,
followed by the encodings of the calls that succeeded. -/
theorem writeAll_wrote (ops : List WriteOp) (wrote : Wrote origin w written) :
    Wrote origin (writeAll w ops)
        (written ++ (successful w ops).flatMap (·.encoding w.endianness)) ∧
      (writeAll w ops).capacity = w.capacity ∧ (writeAll w ops).endianness = w.endianness := by
  induction ops generalizing w written with
  | nil => simpa [writeAll, successful] using wrote
  | cons op ops ih =>
    by_cases fits :
        op.Allowed ∧ written.length + (op.encoding w.endianness).length ≤ w.capacity.toNat
    · obtain ⟨next, ran, moved, capacity, order⟩ := (run_spec op wrote).1 fits
      have rest := ih moved
      rw [capacity, order] at rest
      simpa [writeAll, successful, ran, List.append_assoc] using rest
    · have ran := (run_spec op wrote).2 fits
      simpa [writeAll, successful, ran] using ih wrote

/-- Only allowed calls succeed. -/
theorem successful_allowed (ops : List WriteOp) (wrote : Wrote origin w written) :
    ∀ op ∈ successful w ops, op.Allowed := by
  induction ops generalizing w written with
  | nil => simp [successful]
  | cons op ops ih =>
    by_cases fits :
        op.Allowed ∧ written.length + (op.encoding w.endianness).length ≤ w.capacity.toNat
    · obtain ⟨next, ran, moved, _, _⟩ := (run_spec op wrote).1 fits
      simpa [successful, ran] using ⟨fits.1, ih moved⟩
    · have ran := (run_spec op wrote).2 fits
      simpa [successful, ran] using ih wrote

/-- The eight bytes a partial-width read fills in denote the low part of the
value, at whichever end of the word the order puts them. -/
theorem partial_width_value (endianness : Endianness) (count value : Nat) (within : count ≤ 8) :
    (if endianness = .hostOrder then
        UInt64.ofNat (valueOf ((ordered endianness (image count value) ++
          List.replicate (8 - count) 0).take 8))
      else hostToNet uint64 (UInt64.ofNat (valueOf ((List.replicate (8 - count) 0 ++
        ordered endianness (image count value)).drop (count - 8))))) =
      UInt64.ofNat (value % 256 ^ count) := by
  cases endianness with
  | hostOrder =>
    rw [if_pos rfl, List.take_of_length_le (by simp; omega), valueOf_append, valueOf_zeros]
    simp [ordered, valueOf_image]
  | networkOrder =>
    have low : valueOf (image count value ++ List.replicate (8 - count) 0) =
        value % 256 ^ count := by
      simp [valueOf_append, valueOf_zeros, valueOf_image]
    have width : (List.replicate (8 - count) 0 ++ (image count value).reverse).length = 8 := by
      simp
      omega
    have swapped := byteSwap_valueOf (List.replicate (8 - count) 0 ++ (image count value).reverse)
    rw [width, List.reverse_append, List.reverse_reverse, List.reverse_replicate, low] at swapped
    rw [if_neg (by decide), show count - 8 = 0 by omega, List.drop_zero, ordered]
    rw [← swapped]
    exact hostToNet_ofNat uint64 _

/-- The matching read returns the written value and moves past its encoding. -/
theorem readBack_run (op : WriteOp) (allowed : op.Allowed)
    (cursor : Cursor r before (op.encoding r.endianness ++ after)) :
    ∃ next, op.readBack.1.run r = (some op.readBack.2, next) ∧
      Cursor next (before ++ op.encoding r.endianness) after ∧
      next.endianness = r.endianness := by
  cases op with
  | uint8 value =>
    obtain ⟨next, read, moved, same⟩ := cursor.readBytes 1 rfl
    exact ⟨next, by simp [WriteOp.readBack, ReadOp.run, DataReader.readUInt8, read,
      WriteOp.encoding], moved, same⟩
  | uint16 value =>
    obtain ⟨next, read, moved, same⟩ := Cursor.readUInt uint16 value cursor
    exact ⟨next, by simp only [WriteOp.readBack, ReadOp.run, DataReader.readUInt16, read,
      Option.map_some], moved, same⟩
  | uint32 value =>
    obtain ⟨next, read, moved, same⟩ := Cursor.readUInt uint32 value cursor
    exact ⟨next, by simp only [WriteOp.readBack, ReadOp.run, DataReader.readUInt32, read,
      Option.map_some], moved, same⟩
  | uint64 value =>
    obtain ⟨next, read, moved, same⟩ := Cursor.readUInt uint64 value cursor
    exact ⟨next, by simp only [WriteOp.readBack, ReadOp.run, DataReader.readUInt64, read,
      Option.map_some], moved, same⟩
  | bytes value =>
    obtain ⟨next, read, moved, same⟩ := cursor.readBytes value.size value.size_toNat
    exact ⟨next, by simp [WriteOp.readBack, ReadOp.run, read, WriteOp.encoding], moved, same⟩
  | bytesToUInt64 numBytes value =>
    obtain ⟨next, read, moved, same⟩ := cursor.readBytes numBytes (by simp [WriteOp.encoding])
    refine ⟨next, ?_, moved, same⟩
    have value := partial_width_value r.endianness numBytes.toNat value.toNat allowed
    simp only [WriteOp.readBack, ReadOp.run, DataReader.readBytesToUInt64, read, Option.map_some,
      WriteOp.encoding, value]

/-- A length and the bytes it announces read back as one string piece. -/
theorem stringPiece16_run (length : UInt16) (blob : Blob)
    (announced : blob.bytes.length = length.toNat)
    (cursor : Cursor r before ((WriteOp.uint16 length).encoding r.endianness ++
      (blob.bytes ++ after))) :
    ∃ next, ReadOp.stringPiece16.run r = (some (.bytes blob.bytes), next) ∧
      Cursor next (before ++ (WriteOp.uint16 length).encoding r.endianness ++ blob.bytes) after ∧
      next.endianness = r.endianness := by
  obtain ⟨middle, first, moved, same⟩ := readBack_run (.uint16 length) trivial cursor
  obtain ⟨next, second, finished, order⟩ :=
    moved.readStringPiece length.toUInt64 (by simpa using announced.symm)
  refine ⟨next, ?_, finished, order.trans same⟩
  simp only [WriteOp.readBack, ReadOp.run, Prod.mk.injEq] at first
  obtain ⟨value, rfl⟩ := first
  cases read : r.readUInt16 with
  | mk result rest =>
    rw [read] at value second
    cases result with
    | none => cases value
    | some result =>
      cases value
      simp only [ReadOp.run, DataReader.readStringPiece16, read, second, Option.map_some]

/-- A matching schema over the encodings returns every value and ends exactly
at the end of the input. -/
theorem readAll_matches (schema : Matches ops reads) (allowed : ∀ op ∈ ops, op.Allowed)
    (cursor : Cursor r before (ops.flatMap (·.encoding r.endianness))) :
    ∃ last, readAll r (reads.map (·.1)) = (reads.map (some ·.2), last) ∧
      last.isDoneReading = true := by
  induction schema generalizing r before with
  | nil => exact ⟨r, rfl, cursor.done_iff.mpr rfl⟩
  | call op rest ih =>
    rw [List.flatMap_cons] at cursor
    obtain ⟨next, read, moved, same⟩ := readBack_run op (allowed op (by simp)) cursor
    rw [← same] at moved
    obtain ⟨last, all, done⟩ := ih (fun op member => allowed op (by simp [member])) moved
    exact ⟨last, by simp [readAll, read, all], done⟩
  | string length blob announced rest ih =>
    rw [List.flatMap_cons, List.flatMap_cons] at cursor
    obtain ⟨next, read, moved, same⟩ := stringPiece16_run length blob announced cursor
    rw [← same] at moved
    obtain ⟨last, all, done⟩ := ih (fun op member => allowed op (by simp [member])) moved
    exact ⟨last, by simp [readAll, read, all], done⟩

/-- Writing any sequence of calls leaves exactly the encodings of the successful
ones in front of the untouched rest of the buffer, a failing call changes
nothing, a call fails exactly for a refused width or for lack of room, and every
schema that matches the successful calls reads all their values back and ends
at the end of the message. -/
theorem message_round_trip (endianness : Endianness) (buf : List UInt8) (capacity : UInt32)
    (room : capacity.toNat ≤ buf.length) (ops : List WriteOp) :
    let start := DataWriter.create buf capacity endianness room
    let final := writeAll start ops
    let message := (successful start ops).flatMap (·.encoding endianness)
    final.buf.take final.length.toNat = message ∧
    final.length.toNat ≤ final.capacity.toNat ∧ final.capacity = capacity ∧
    final.buf.drop final.length.toNat = buf.drop final.length.toNat ∧
    (∀ (before : List WriteOp) (op : WriteOp), let w := writeAll start before
      ((op.run w).1 = true ↔
        op.Allowed ∧ w.length.toNat + (op.encoding endianness).length ≤ capacity.toNat) ∧
      ((op.run w).1 = false → (op.run w).2.pos = w.pos ∧ (op.run w).2.buf = w.buf)) ∧
    ∀ reads, Matches (successful start ops) reads →
      ∃ last, readAll (DataReader.create (final.buf.take final.length.toNat) final.length endianness)
        (reads.map (·.1)) = (reads.map (some ·.2), last) ∧ last.isDoneReading = true := by
  intro start final message
  have created : Wrote buf start [] := Wrote.create buf capacity endianness room
  obtain ⟨wrote, kept, _⟩ : Wrote buf final message ∧ final.capacity = capacity ∧
      final.endianness = endianness := writeAll_wrote ops created
  have front : final.buf.take final.length.toNat = message := by
    rw [DataWriter.length, wrote.pos, wrote.buf, List.take_left]
  refine ⟨front, wrote.pos ▸ wrote.within, kept, ?_, ?_, ?_⟩
  · rw [DataWriter.length, wrote.pos, wrote.buf, List.drop_left]
  · intro before op w
    obtain ⟨reached, bound, order⟩ := writeAll_wrote before created
    have spec := run_spec op reached
    rw [order, bound, ← reached.pos] at spec
    by_cases fits : op.Allowed ∧ w.length.toNat + (op.encoding endianness).length ≤ capacity.toNat
    · obtain ⟨next, ran, _⟩ := spec.1 fits
      exact ⟨by simp [w, ran, fits], by simp [w, ran]⟩
    · have ran := spec.2 fits
      exact ⟨by simp [w, ran, fits], by simp [w, ran]⟩
  · intro reads schema
    have cursor := Cursor.create message final.length endianness wrote.pos
    rw [front]
    exact readAll_matches schema (successful_allowed ops created) cursor

/-- In a capacity of twelve bytes, a counted string, a three-byte integer and a 32-bit
one fit, a 64-bit one does not, and a nine-byte width is refused. -/
theorem short_message_round_trip :
    let start := DataWriter.create (List.replicate 16 9) 12 .networkOrder (by decide)
    let final := writeAll start [.uint16 2, .bytes ⟨[7, 8], by decide⟩, .bytesToUInt64 3 0x1020304,
      .uint64 5, .bytesToUInt64 9 1, .uint32 258]
    final.buf.take final.length.toNat = [0, 2, 7, 8, 2, 3, 4, 0, 0, 1, 2] ∧
    ∃ last, readAll (DataReader.create (final.buf.take final.length.toNat) final.length
        .networkOrder) [.stringPiece16, .bytesToUInt64 3, .uint32] =
      ([some (.bytes [7, 8]), some (.uint64 0x20304), some (.uint32 258)], last) ∧
      last.isDoneReading = true := by
  intro start final
  have trip := message_round_trip .networkOrder (List.replicate 16 9) 12 (by decide)
    [.uint16 2, .bytes ⟨[7, 8], by decide⟩, .bytesToUInt64 3 0x1020304, .uint64 5,
      .bytesToUInt64 9 1, .uint32 258]
  refine ⟨trip.1.trans (by decide +kernel), ?_⟩
  exact trip.2.2.2.2.2 _ (.string 2 ⟨[7, 8], by decide⟩ rfl (.call (.bytesToUInt64 3 0x1020304)
    (.call (.uint32 258) .nil)))

end TcpCongestion.CodecRoundTrip
