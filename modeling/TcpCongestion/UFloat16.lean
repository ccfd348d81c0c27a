import TcpCongestion.ByteCodecProofs
import TcpCongestion.TruncatedFloat

/-! The 16-bit floating-point numbers of the codec. The machine arithmetic of the encoder and the
decoder is that of a format with 11 stored bits and exponents up to 30, so a value that is written
and read back is rounded down to the grid of that format. -/
namespace TcpCongestion.UFloat16
open LittleEndian ByteCodec ByteCodecProofs TruncatedFloat

/-- The representable values: those below 4096, and `m * 2 ^ k` with a 12-bit `m`. -/
def representable : Set Nat :=
  {x | x < 4096 ∨ ∃ m k, 2048 ≤ m ∧ m < 4096 ∧ 1 ≤ k ∧ k ≤ 30 ∧ x = m * 2 ^ k}

private theorem representable_eq : representable = grid 11 30 := rfl

/-! ## The arithmetic -/

private theorem shiftLeft_toNat (value shift : UInt64) (within : shift.toNat < 64)
    (fits : value.toNat * 2 ^ shift.toNat < 2 ^ 64) :
    (value <<< shift).toNat = value.toNat * 2 ^ shift.toNat := by
  rw [UInt64.toNat_shiftLeft, Nat.mod_eq_of_lt within, Nat.shiftLeft_eq, Nat.mod_eq_of_lt fits]

private theorem shiftRight_toNat (value shift : UInt64) (within : shift.toNat < 64) :
    (value >>> shift).toNat = value.toNat / 2 ^ shift.toNat := by
  rw [UInt64.toNat_shiftRight, Nat.mod_eq_of_lt within, Nat.shiftRight_eq_div_pow]

private theorem decodeUFloat16_toNat (code : UInt16) :
    (DataReader.decodeUFloat16 code).toNat = decode 11 code.toNat := by
  have bound := code.toNat_lt
  have limit : ((1 : UInt64) <<< 12).toNat = 2 ^ (11 + 1) := by decide
  simp only [DataReader.decodeUFloat16, decode, UInt64.lt_iff_toNat_lt, limit,
    UInt16.toNat_toUInt64]
  split
  · exact UInt16.toNat_toUInt64 code
  · rename_i long
    -- the field is between 2 and 31, so un-offsetting does not wrap and no bit is shifted out
    generalize exponent : code.toNat / 2 ^ 11 - 1 = e
    have within : e ≤ 30 := by omega
    have shifted : (code >>> 11).toNat = code.toNat / 2 ^ 11 := by
      rw [UInt16.toNat_shiftRight, Nat.shiftRight_eq_div_pow]
      rfl
    have field : (code >>> 11 - 1).toUInt64.toNat = e := by
      have offset : (1 : UInt16) ≤ code >>> 11 := by
        rw [UInt16.le_iff_toNat_le, shifted, UInt16.toNat_one]
        omega
      rw [UInt16.toNat_toUInt64, UInt16.toNat_sub_of_le _ _ offset, shifted, ← exponent]
      rfl
    have removed : ((code >>> 11 - 1).toUInt64 <<< 11).toNat = e * 2 ^ 11 := by
      have eleven : (11 : UInt64).toNat = 11 := rfl
      rw [shiftLeft_toNat _ _ (by decide) (by rw [field, eleven]; omega), field, eleven]
    have mantissa : (code.toUInt64 - (code >>> 11 - 1).toUInt64 <<< 11).toNat =
        code.toNat - e * 2 ^ 11 := by
      rw [UInt64.toNat_sub_of_le, removed, UInt16.toNat_toUInt64]
      rw [UInt64.le_iff_toNat_le, removed, UInt16.toNat_toUInt64]
      omega
    have fits : (code.toNat - e * 2 ^ 11) * 2 ^ e < 2 ^ 64 := by
      calc (code.toNat - e * 2 ^ 11) * 2 ^ e ≤ 2 ^ 12 * 2 ^ 30 :=
            Nat.mul_le_mul (by omega) (Nat.pow_le_pow_right (by decide) within)
        _ < 2 ^ 64 := by decide
    rw [shiftLeft_toNat _ _ (by rw [field]; omega) (by rw [mantissa, field]; exact fits), mantissa,
      field]

private theorem shiftIfAbove_toNat (exponent offset : UInt16) (value : UInt64)
    (small : exponent.toNat + offset.toNat < 2 ^ 16) (within : 11 + offset.toNat < 64) :
    let next := DataWriter.shiftIfAbove (exponent, value) offset
    (next.1.toNat, next.2.toNat) = dropIfAbove 11 (exponent.toNat, value.toNat) offset.toNat := by
  have position : (11 + offset.toUInt64).toNat = 11 + offset.toNat := by
    rw [UInt64.toNat_add, UInt16.toNat_toUInt64, show (11 : UInt64).toNat = 11 from rfl]
    exact Nat.mod_eq_of_lt (by omega)
  have threshold : ((1 : UInt64) <<< (11 + offset.toUInt64)).toNat = 2 ^ (11 + offset.toNat) := by
    have power : 2 ^ (11 + offset.toNat) < 2 ^ 64 := Nat.pow_lt_pow_right (by decide) within
    rw [shiftLeft_toNat _ _ (by rw [position]; exact within) (by simpa [position] using power),
      position, UInt64.toNat_one, Nat.one_mul]
  simp only [DataWriter.shiftIfAbove, dropIfAbove, ge_iff_le, UInt64.le_iff_toNat_le, threshold]
  split
  · rw [UInt16.toNat_add, Nat.mod_eq_of_lt small,
      shiftRight_toNat _ _ (by rw [UInt16.toNat_toUInt64]; omega), UInt16.toNat_toUInt64]
  · rfl

/-- The loop over the offsets, as far as it does not overflow its counter. -/
theorem search_toNat (offsets : List UInt16) (exponent : UInt16) (value : UInt64)
    (small : exponent.toNat + (offsets.map UInt16.toNat).sum < 2 ^ 16)
    (within : ∀ offset ∈ offsets, 11 + offset.toNat < 64) :
    let last := offsets.foldl DataWriter.shiftIfAbove (exponent, value)
    (last.1.toNat, last.2.toNat) =
      (offsets.map UInt16.toNat).foldl (dropIfAbove 11) (exponent.toNat, value.toNat) := by
  induction offsets generalizing exponent value with
  | nil => rfl
  | cons offset rest ih =>
    rw [List.map_cons, List.sum_cons] at small
    have step := shiftIfAbove_toNat exponent offset value (by omega)
      (within offset List.mem_cons_self)
    generalize moved : DataWriter.shiftIfAbove (exponent, value) offset = next at step
    obtain ⟨e, v⟩ := next
    have grown : e.toNat ≤ exponent.toNat + offset.toNat := by
      have first := congrArg Prod.fst step
      simp only [dropIfAbove] at first
      split at first <;> simp only at first <;> omega
    have onward := ih e v (by omega) fun other member =>
      within other (List.mem_cons_of_mem _ member)
    simpa only [List.foldl_cons, List.map_cons, moved, ← step] using onward

/-- Five halvings search all the exponents. -/
theorem exponents : 30 < 2 ^ 5 := by decide

private theorem encodeUFloat16_toNat (value : UInt64) :
    (DataWriter.encodeUFloat16 value).toNat = encode 11 30 5 value.toNat := by
  have limit : ((1 : UInt64) <<< 12).toNat = 2 ^ (11 + 1) := by decide
  have most : DataWriter.kUFloat16MaxValue.toNat = largest 11 30 := by decide +kernel
  have search := search_toNat [16, 8, 4, 2, 1] 0 value (by decide) (by simp)
  have halved : ([16, 8, 4, 2, 1] : List UInt16).map UInt16.toNat = halvings 5 := by decide
  simp only [DataWriter.encodeUFloat16, ge_iff_le, UInt64.lt_iff_toNat_lt, UInt64.le_iff_toNat_le,
    limit, most]
  by_cases short : value.toNat < 2 ^ (11 + 1)
  · rw [if_pos short, encode, if_pos short, UInt64.toNat_toUInt16]
    exact Nat.mod_eq_of_lt (by omega)
  · by_cases saturated : largest 11 30 ≤ value.toNat
    · rw [if_neg short, if_pos saturated, encode, if_neg short, if_pos saturated]
      rfl
    · obtain ⟨m, e, found, cut, _, within⟩ := search_cut exponents
        (Nat.le_of_not_lt short) (Nat.lt_of_not_le saturated)
      rw [if_neg short, if_neg saturated, encode, if_neg short, if_neg saturated, found]
      rw [halved] at search
      generalize [16, 8, 4, 2, 1].foldl DataWriter.shiftIfAbove (0, value) = last at search
      obtain ⟨exponent, mantissa⟩ := last
      have result : (exponent.toNat, mantissa.toNat) = (e, m) := search.trans found
      rw [Prod.mk.injEq] at result
      have kept := cut.short
      have field : (exponent.toUInt64 <<< 11).toNat = e * 2 ^ 11 := by
        rw [shiftLeft_toNat _ _ (by decide) ?_, UInt16.toNat_toUInt64, result.1]
        · rfl
        · rw [UInt16.toNat_toUInt64, result.1, show (11 : UInt64).toNat = 11 from rfl]
          omega
      rw [UInt64.toNat_toUInt16, UInt64.toNat_add, field, result.2]
      dsimp only
      omega

/-! ## The bytes -/

/-- A 16-bit number put on the wire and the same number read from it. -/
theorem Wrote.writeUFloat16 (wrote : Wrote origin w written) (value : UInt64)
    (fits : written.length + 2 ≤ w.capacity.toNat) :
    ∃ next, w.writeUFloat16 value = (true, next) ∧ Wrote origin next
      (written ++ ordered w.endianness (image 2 (DataWriter.encodeUFloat16 value).toNat)) := by
  obtain ⟨next, ran, moved, _⟩ :=
    Wrote.writeUInt wrote uint16 (DataWriter.encodeUFloat16 value) fits
  exact ⟨next, ran, moved⟩

/-- The two bytes a writer puts at its position for a value. -/
def writtenBytes (w : DataWriter) (value : UInt64) : List UInt8 :=
  ((w.writeUFloat16 value).2.buf.drop w.pos.toNat).take 2

/-- What a reader of the two bytes makes of them. -/
def readBytes (endianness : Endianness) (bytes : List UInt8) : Option UInt64 :=
  (DataReader.create bytes 2 endianness).readUFloat16.1

private theorem writtenBytes_eq (w : DataWriter) (value : UInt64)
    (room : w.pos.toNat + 2 ≤ w.capacity.toNat) :
    (w.writeUFloat16 value).1 = true ∧ writtenBytes w value =
      ordered w.endianness (image 2 (DataWriter.encodeUFloat16 value).toNat) := by
  have inside := w.room
  have position : (w.buf.take w.pos.toNat).length = w.pos.toNat :=
    List.length_take_of_le (by omega)
  have wrote : Wrote w.buf w (w.buf.take w.pos.toNat) :=
    ⟨by rw [position, List.take_append_drop], position.symm, by omega⟩
  obtain ⟨next, ran, moved⟩ := Wrote.writeUFloat16 wrote value (by omega)
  refine ⟨by rw [ran], ?_⟩
  rw [writtenBytes, ran, moved.buf, List.append_assoc, List.drop_left' position]
  exact List.take_left' (by simp)

private theorem readBytes_eq (endianness : Endianness) (bytes : List UInt8)
    (two : bytes.length = 2) : readBytes endianness bytes =
      some (DataReader.decodeUFloat16 (UInt16.ofNat (fromWire endianness 2 bytes))) := by
  have cursor := Cursor.create (bytes ++ []) 2 endianness (by simp [two])
  obtain ⟨next, read, _⟩ := cursor.readBytes uint16.size two.symm
  rw [List.append_nil] at read
  rw [readBytes, DataReader.readUFloat16, DataReader.readUInt16, readUInt_eq, read]
  rfl

/-- A value written and read back. -/
theorem readBytes_writtenBytes (w : DataWriter) (value : UInt64)
    (room : w.pos.toNat + 2 ≤ w.capacity.toNat) :
    readBytes w.endianness (writtenBytes w value) =
      some (DataReader.decodeUFloat16 (DataWriter.encodeUFloat16 value)) := by
  have small : (DataWriter.encodeUFloat16 value).toNat < 256 ^ 2 := UInt16.toNat_lt _
  rw [(writtenBytes_eq w value room).2, readBytes_eq _ _ (by simp), fromWire_ordered,
    Nat.mod_eq_of_lt small, UInt16.ofNat_toNat]

private theorem round_toNat (value : UInt64) :
    (DataReader.decodeUFloat16 (DataWriter.encodeUFloat16 value)).toNat =
      decode 11 (encode 11 30 5 value.toNat) := by
  rw [decodeUFloat16_toNat, encodeUFloat16_toNat]

private theorem encode_decodeUFloat16 (code : UInt16) :
    DataWriter.encodeUFloat16 (DataReader.decodeUFloat16 code) = code := by
  rw [← UInt16.toNat_inj, encodeUFloat16_toNat, decodeUFloat16_toNat]
  exact encode_decode exponents code.toNat code.toNat_lt

/-- In either byte order a value written and read back is rounded down to the largest
representable value, with saturation at the largest of all; so the order of values is kept and
the error is at most one part in 2048. Two bytes that are read and written back stay as they
were. -/
theorem ufloat16_rounds_down (w : DataWriter) (room : w.pos.toNat + 2 ≤ w.capacity.toNat) :
    (∀ value : UInt64, (w.writeUFloat16 value).1 = true ∧
      ∃ result, readBytes w.endianness (writtenBytes w value) = some result ∧
        IsGreatest {x | x ∈ representable ∧ x ≤ value.toNat} result.toNat ∧
        ((2 ^ 12 - 1) * 2 ^ 30 ≤ value.toNat → result.toNat = (2 ^ 12 - 1) * 2 ^ 30) ∧
        (value.toNat ≤ (2 ^ 12 - 1) * 2 ^ 30 →
          2048 * (value.toNat - result.toNat) ≤ value.toNat)) ∧
    (∀ low high first second : UInt64, low ≤ high →
      readBytes w.endianness (writtenBytes w low) = some first →
      readBytes w.endianness (writtenBytes w high) = some second → first ≤ second) ∧
    ∀ bytes : List UInt8, bytes.length = 2 →
      ∃ value, readBytes w.endianness bytes = some value ∧ writtenBytes w value = bytes := by
  have greatest (value : UInt64) := decode_encode (p := 11) exponents (by decide) value.toNat
  refine ⟨fun value => ⟨(writtenBytes_eq w value room).1, _, readBytes_writtenBytes w value room,
    ?_, ?_, ?_⟩, ?_, ?_⟩
  · rw [round_toNat, representable_eq]
    exact greatest value
  · intro above
    rw [round_toNat]
    exact (greatest value).unique (isGreatest_largest above)
  · intro within
    rw [round_toNat]
    exact decode_encode_error (p := 11) exponents (by decide) within
  · intro low high first second ordered one two
    rw [readBytes_writtenBytes w _ room, Option.some.injEq] at one two
    rw [UInt64.le_iff_toNat_le, ← one, ← two, round_toNat, round_toNat]
    exact isGreatest_mono (UInt64.le_iff_toNat_le.mp ordered) (greatest low) (greatest high)
  · intro bytes two
    refine ⟨_, readBytes_eq w.endianness bytes two, ?_⟩
    rw [(writtenBytes_eq w _ room).2, encode_decodeUFloat16, UInt16.toNat_ofNat',
      show 2 ^ 16 = 256 ^ 2 by decide, image_mod, ← two, ordered_fromWire]

/-- 5001 has 13 bits and loses the lowest. -/
theorem odd_value_rounds_down :
    let w := DataWriter.create [0, 0] 2 .networkOrder (by decide)
    readBytes .networkOrder (writtenBytes w 5001) = some 5000 ∧
      IsGreatest {x | x ∈ representable ∧ x ≤ 5001} 5000 := by
  intro w
  obtain ⟨rounds, _, _⟩ := ufloat16_rounds_down w (by decide)
  obtain ⟨_, result, read, greatest, _⟩ := rounds 5001
  have value : readBytes .networkOrder (writtenBytes w 5001) = some 5000 := by decide +kernel
  cases read.symm.trans value
  exact ⟨value, greatest⟩

end TcpCongestion.UFloat16
