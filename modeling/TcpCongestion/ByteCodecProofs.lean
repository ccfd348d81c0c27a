import TcpCongestion.ByteCodec

/-! What one call of the codec does to its cursor. The writer's whole state is
the bytes written so far over the buffer it was given, and the reader's is the
split of its input into what was consumed and what is left; every read and
write is then a statement about lists of bytes. -/
namespace TcpCongestion.ByteCodecProofs
open LittleEndian ByteCodec

/-- The bytes of an encoded integer in the order the codec puts them on the wire. -/
def ordered (endianness : Endianness) (bytes : List UInt8) : List UInt8 :=
  match endianness with
  | .networkOrder => bytes.reverse
  | .hostOrder => bytes

@[simp] theorem ordered_length (endianness : Endianness) (bytes : List UInt8) :
    (ordered endianness bytes).length = bytes.length := by
  cases endianness <;> simp [ordered]

private theorem image_byteSwap (width value : Nat) :
    image width (byteSwap width value) = (image width value).reverse := by
  simpa [byteSwap] using image_valueOf (image width value).reverse

private theorem byteSwap_mod (width value : Nat) :
    byteSwap width (value % 256 ^ width) = byteSwap width value := by
  rw [byteSwap, byteSwap, image_mod]

theorem byteSwap_valueOf (bytes : List UInt8) :
    byteSwap bytes.length (valueOf bytes) = valueOf bytes.reverse := by
  rw [byteSwap, image_valueOf]

/-- What a fixed-width read makes of the bytes it copied. -/
def fromWire (endianness : Endianness) (width : Nat) (bytes : List UInt8) : Nat :=
  match endianness with
  | .networkOrder => byteSwap width (valueOf bytes)
  | .hostOrder => valueOf bytes

/-- Decoding undoes the order the encoder chose, in either order. -/
theorem fromWire_ordered (endianness : Endianness) (width value : Nat) :
    fromWire endianness width (ordered endianness (image width value)) = value % 256 ^ width := by
  cases endianness with
  | networkOrder =>
    have back := byteSwap_valueOf (image width value).reverse
    rw [List.length_reverse, image_length, List.reverse_reverse, valueOf_image] at back
    exact back
  | hostOrder => exact valueOf_image width value

/-- Bytes are the ordered image of the number they are read as. -/
theorem ordered_fromWire (endianness : Endianness) (bytes : List UInt8) :
    ordered endianness (image bytes.length (fromWire endianness bytes.length bytes)) = bytes := by
  cases endianness with
  | networkOrder =>
    rw [fromWire, image_byteSwap, image_valueOf, ordered, List.reverse_reverse]
  | hostOrder => exact image_valueOf bytes

theorem fromWire_lt (endianness : Endianness) (bytes : List UInt8) :
    fromWire endianness bytes.length bytes < 256 ^ bytes.length := by
  cases endianness with
  | networkOrder =>
    rw [fromWire, byteSwap_valueOf, ← List.length_reverse]
    exact valueOf_lt bytes.reverse
  | hostOrder => exact valueOf_lt bytes

theorem hostToNet_ofNat (type : Unsigned α) (value : Nat) :
    hostToNet type (type.ofNat value) = type.ofNat (byteSwap type.width value) := by
  rw [hostToNet, type.toNat_ofNat, byteSwap_mod]

/-- The object representation the writer copies out is the ordered image. -/
theorem image_hostToNet (type : Unsigned α) (endianness : Endianness) (value : α) :
    image type.width (type.toNat
        (if endianness = .networkOrder then hostToNet type value else value)) =
      ordered endianness (image type.width (type.toNat value)) := by
  cases endianness with
  | networkOrder =>
    rw [if_pos rfl, hostToNet, type.toNat_ofNat, image_mod, image_byteSwap]
    rfl
  | hostOrder => rfl

/-- A partial width keeps the low end of the number in either order. -/
theorem ordered_image_partial (endianness : Endianness) (count value : Nat) (within : count ≤ 8) :
    (match endianness with
      | .networkOrder => (ordered .networkOrder (image 8 value)).drop (8 - count)
      | .hostOrder => (image 8 value).take count) = ordered endianness (image count value) := by
  cases endianness with
  | networkOrder =>
    simp only [ordered]
    rw [List.drop_reverse, image_length, show 8 - (8 - count) = count by omega,
      image_take count 8 value within]
  | hostOrder => exact image_take count 8 value within

/-! ## The reader's cursor -/

/-- The reader has consumed `before` of its input and `after` is left. -/
structure Cursor (r : DataReader) (before after : List UInt8) : Prop where
  data : r.data = before ++ after
  pos : r.pos.toNat = before.length
  len : r.len.toNat = before.length + after.length

theorem Cursor.create (bytes : List UInt8) (len : UInt32) (endianness : Endianness)
    (whole : len.toNat = bytes.length) :
    Cursor (DataReader.create bytes len endianness) [] bytes :=
  ⟨rfl, rfl, by simpa [DataReader.create] using whole⟩

private theorem Cursor.remaining (cursor : Cursor r before after) :
    (r.len - r.pos).toNat = after.length := by
  have pos := cursor.pos
  have len := cursor.len
  rw [UInt32.toNat_sub_of_le]
  · omega
  · rw [UInt32.le_iff_toNat_le]
    omega

theorem Cursor.done_iff (cursor : Cursor r before after) :
    r.isDoneReading = true ↔ after = [] := by
  have pos := cursor.pos
  have len := cursor.len
  simp only [DataReader.isDoneReading, beq_iff_eq, ← UInt32.toNat_inj, ← List.length_eq_zero_iff]
  omega

private theorem Cursor.canRead (cursor : Cursor r before (piece ++ after)) {size : UInt32}
    (fits : size.toNat = piece.length) : r.canRead size = true := by
  have remaining := cursor.remaining
  rw [List.length_append] at remaining
  simp only [DataReader.canRead, decide_eq_true_eq, UInt32.le_iff_toNat_le]
  omega

/-- The cursor behind the next bytes. -/
theorem Cursor.advance (cursor : Cursor r before (piece ++ after)) {pos : UInt32}
    (moved : pos.toNat = before.length + piece.length) :
    Cursor { r with pos := pos } (before ++ piece) after := by
  have len := cursor.len
  rw [List.length_append] at len
  refine ⟨?_, ?_, ?_⟩
  · rw [cursor.data, List.append_assoc]
  · rw [List.length_append]
    exact moved
  · rw [List.length_append, Nat.add_assoc]
    exact len

/-- A read of bytes that are there returns exactly the next ones. -/
theorem Cursor.readBytes (cursor : Cursor r before (piece ++ after)) (size : UInt32)
    (fits : size.toNat = piece.length) :
    ∃ next, r.readBytes size = (some piece, next) ∧ Cursor next (before ++ piece) after ∧
      next.endianness = r.endianness := by
  have bound := r.len.toNat_lt
  have len := cursor.len
  have pos := cursor.pos
  rw [List.length_append] at len
  refine ⟨{ r with pos := r.pos + size }, ?_, cursor.advance ?_, rfl⟩
  · simp [DataReader.readBytes, cursor.canRead fits, cursor.data, cursor.pos, fits]
  · rw [UInt32.toNat_add]
    omega

/-- The string read takes a 64-bit size; inside the input it is a plain read. -/
theorem Cursor.readStringPiece (cursor : Cursor r before (piece ++ after)) (size : UInt64)
    (fits : size.toNat = piece.length) :
    ∃ next, r.readStringPiece size = (some piece, next) ∧ Cursor next (before ++ piece) after ∧
      next.endianness = r.endianness := by
  have bound := r.len.toNat_lt
  have len := cursor.len
  have pos := cursor.pos
  rw [List.length_append] at len
  have narrow : size.toUInt32.toNat = piece.length := by
    rw [UInt64.toNat_toUInt32]
    omega
  refine ⟨{ r with pos := (r.pos.toUInt64 + size).toUInt32 }, ?_, cursor.advance ?_, rfl⟩
  · simp [DataReader.readStringPiece, cursor.canRead narrow, cursor.data, cursor.pos, fits]
  · rw [UInt64.toNat_toUInt32, UInt64.toNat_add, UInt32.toNat_toUInt64]
    omega

/-- A read that asks for more than is left fails and drops the rest. -/
theorem Cursor.readBytes_fails (cursor : Cursor r before after) (size : UInt32)
    (short : after.length < size.toNat) : r.readBytes size = (none, r.onFailure) := by
  have remaining := cursor.remaining
  have refused : r.canRead size = false := by
    simp only [DataReader.canRead, decide_eq_false_iff_not, UInt32.le_iff_toNat_le]
    omega
  simp [DataReader.readBytes, refused]

/-- A fixed-width read decodes whatever `ReadBytes` copied. -/
theorem readUInt_eq (type : Unsigned α) (r : DataReader) :
    r.readUInt type = ((r.readBytes type.size).1.map fun bytes =>
      type.ofNat (fromWire r.endianness type.width bytes), (r.readBytes type.size).2) := by
  cases order : r.endianness <;> simp [DataReader.readUInt, order, fromWire, hostToNet_ofNat]

/-- The integer on the wire is what a read of its type returns. -/
theorem Cursor.readUInt (type : Unsigned α) (value : α) (cursor : Cursor r before
      (ordered r.endianness (image type.width (type.toNat value)) ++ after)) :
    ∃ next, r.readUInt type = (some value, next) ∧
      Cursor next (before ++ ordered r.endianness (image type.width (type.toNat value))) after ∧
      next.endianness = r.endianness := by
  obtain ⟨next, read, moved, same⟩ := cursor.readBytes type.size (by simp)
  refine ⟨next, ?_, moved, same⟩
  rw [readUInt_eq, read, Option.map_some, fromWire_ordered, type.toNat_mod, type.ofNat_toNat]

/-! ## The writer's cursor -/

/-- The writer has put `written` over the start of the buffer `origin`. -/
structure Wrote (origin : List UInt8) (w : DataWriter) (written : List UInt8) : Prop where
  buf : w.buf = written ++ origin.drop written.length
  pos : w.pos.toNat = written.length
  within : written.length ≤ w.capacity.toNat

theorem Wrote.create (buf : List UInt8) (len : UInt32) (endianness : Endianness)
    (room : len.toNat ≤ buf.length) : Wrote buf (DataWriter.create buf len endianness room) [] :=
  ⟨rfl, rfl, Nat.zero_le _⟩

private theorem splice_at_end (written tail piece : List UInt8)
    (fits : piece.length ≤ tail.length) : DataWriter.splice (written ++ tail) written.length piece =
      written ++ piece ++ tail.drop piece.length := by
  rw [DataWriter.splice, List.take_left, List.drop_append, List.drop_eq_nil_of_le (by omega),
    List.nil_append, Nat.add_sub_cancel_left]
  apply List.take_of_length_le
  simp only [List.length_append, List.length_drop]
  omega

/-- Without room nothing changes; with room exactly the piece is appended. -/
theorem Wrote.writeBytes (wrote : Wrote origin w written) (value : List UInt8) (size : UInt32)
    (source : size.toNat ≤ value.length) :
    if written.length + size.toNat ≤ w.capacity.toNat then
      ∃ next, w.writeBytes value size = (true, next) ∧
        Wrote origin next (written ++ value.take size.toNat) ∧
        next.capacity = w.capacity ∧ next.endianness = w.endianness
    else w.writeBytes value size = (false, w) := by
  have pos := wrote.pos
  have within := wrote.within
  have room := w.room
  have bound := w.capacity.toNat_lt
  have inside : ¬ w.pos > w.capacity := by
    rw [gt_iff_lt, UInt32.lt_iff_toNat_lt]
    omega
  have left : (w.capacity - w.pos).toNat = w.capacity.toNat - written.length := by
    rw [UInt32.toNat_sub_of_le _ _ (by rw [UInt32.le_iff_toNat_le]; omega), pos]
  split
  · rename_i fits
    have enough : ¬ w.capacity - w.pos < size := by
      rw [UInt32.lt_iff_toNat_lt]
      omega
    have length : (value.take size.toNat).length = size.toNat := List.length_take_of_le source
    have begun : w.beginWrite size = some written.length := by
      simp [DataWriter.beginWrite, inside, enough, pos]
    rw [DataWriter.writeBytes, begun]
    refine ⟨_, rfl, ⟨?_, ?_, ?_⟩, rfl, rfl⟩
    · have tail : (value.take size.toNat).length ≤ (origin.drop written.length).length := by
        rw [wrote.buf, List.length_append] at room
        omega
      dsimp only
      rw [wrote.buf, splice_at_end _ _ _ tail, List.drop_drop, List.length_append]
    · rw [List.length_append, UInt32.toNat_add, length]
      omega
    · rw [List.length_append, length]
      exact fits
  · rename_i full
    have lacking : w.capacity - w.pos < size := by
      rw [UInt32.lt_iff_toNat_lt]
      omega
    simp [DataWriter.writeBytes, DataWriter.beginWrite, inside, lacking]

/-! ## The announcement at the head of a stream -/

/-- Two words in network order: the client id and the total. -/
def announcement (id total : UInt32) : List UInt8 :=
  ordered .networkOrder (image 4 id.toNat) ++ ordered .networkOrder (image 4 total.toNat)

@[simp] theorem announcement_length (id total : UInt32) : (announcement id total).length = 8 := by
  simp [announcement]

/-- The two reads of a receiver find what was announced. -/
theorem read_announcement (id total : UInt32) (rest : List UInt8) (len : UInt32)
    (whole : len.toNat = (announcement id total ++ rest).length) :
    let reader := DataReader.create (announcement id total ++ rest) len .networkOrder
    reader.readUInt32.1 = some id ∧ reader.readUInt32.2.readUInt32.1 = some total := by
  intro reader
  have cursor := Cursor.create (announcement id total ++ rest) len .networkOrder whole
  rw [announcement, List.append_assoc] at cursor
  obtain ⟨second, first, moved, order⟩ := Cursor.readUInt uint32 id cursor
  have network : second.endianness = .networkOrder := order
  rw [← network] at moved
  obtain ⟨_, next, _, _⟩ := Cursor.readUInt uint32 total moved
  rw [← List.append_assoc] at first
  have started : reader.readUInt32 = (some id, second) := first
  have finished : second.readUInt32 = (some total, _) := next
  rw [started, finished]
  exact ⟨rfl, rfl⟩

theorem writeUInt_eq (w : DataWriter) (type : Unsigned α) (value : α) :
    w.writeUInt type value =
      w.writeBytes (ordered w.endianness (image type.width (type.toNat value))) type.size := by
  rw [DataWriter.writeUInt, image_hostToNet]

theorem Wrote.writeUInt (wrote : Wrote origin w written) (type : Unsigned α) (value : α)
    (fits : written.length + type.width ≤ w.capacity.toNat) :
    ∃ next, w.writeUInt type value = (true, next) ∧
      Wrote origin next (written ++ ordered w.endianness (image type.width (type.toNat value))) ∧
      next.capacity = w.capacity ∧ next.endianness = w.endianness := by
  obtain ⟨next, ran, moved, capacity, order⟩ :=
    (if_pos (show written.length + type.size.toNat ≤ _ from type.size_toNat ▸ fits)).mp
      (wrote.writeBytes (ordered w.endianness (image type.width (type.toNat value))) type.size
        (by simp))
  rw [List.take_of_length_le (by simp)] at moved
  refine ⟨next, ?_, moved, capacity, order⟩
  rw [writeUInt_eq, ran]

/-- The two writes of a sender leave the announcement in front of the buffer. -/
theorem write_announcement (buf : List UInt8) (len : UInt32) (room : len.toNat ≤ buf.length)
    (id total : UInt32) (fits : 8 ≤ len.toNat) :
    let writer := DataWriter.create buf len .networkOrder room
    ((writer.writeUInt32 id).2.writeUInt32 total).2.buf = announcement id total ++ buf.drop 8 := by
  intro writer
  obtain ⟨second, first, wrote, capacity, order⟩ :=
    (Wrote.create buf len .networkOrder room).writeUInt uint32 id (by
      simp [DataWriter.create, uint32]; omega)
  have network : second.endianness = .networkOrder := order
  have same : second.capacity = len := capacity
  obtain ⟨third, next, wrote, _, _⟩ := wrote.writeUInt uint32 total (by
    simp [same, uint32]; omega)
  have started : writer.writeUInt32 id = (true, second) := first
  have finished : second.writeUInt32 total = (true, third) := next
  rw [started, finished, wrote.buf, network]
  rfl

end TcpCongestion.ByteCodecProofs
