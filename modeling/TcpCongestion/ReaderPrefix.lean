import Mathlib.Data.UInt
import TcpCongestion.CodecRoundTrip

/-! `DataReader` on arbitrary input. In every state a reader reaches, its cursor is inside its
buffer; a call takes the next bytes if there are as many as it needs, and otherwise moves the
cursor to the end, where every later call fails that needs a byte. What the 32-bit guard lets
through beyond that is the subject of the last section. -/
namespace TcpCongestion.ReaderPrefix
open LittleEndian ByteCodec ByteCodecProofs CodecRoundTrip

/-! ## What a call asks for -/

/-- The bytes a call needs, given what is left; a string piece needs its length field and the
bytes that announces. -/
def need (endianness : Endianness) (rest : List UInt8) : ReadOp → Nat
  | .uint8 => 1
  | .uint16 => 2
  | .uint32 => 4
  | .uint64 => 8
  | .bytes size => size.toNat
  | .bytesToUInt64 numLen => numLen.toNat
  | .ufloat16 => 2
  | .stringPiece16 => 2 + fromWire endianness 2 (rest.take 2)

/-- What a call makes of its bytes. -/
def decoded (endianness : Endianness) (piece : List UInt8) : ReadOp → ReadValue
  | .uint8 => .uint8 (UInt8.ofNat (valueOf piece))
  | .uint16 => .uint16 (UInt16.ofNat (fromWire endianness 2 piece))
  | .uint32 => .uint32 (UInt32.ofNat (fromWire endianness 4 piece))
  | .uint64 => .uint64 (UInt64.ofNat (fromWire endianness 8 piece))
  | .bytes _ => .bytes piece
  | .bytesToUInt64 numLen => .uint64 (UInt64.ofNat (fromWire endianness numLen.toNat piece))
  | .ufloat16 =>
    .uint64 (DataReader.decodeUFloat16 (UInt16.ofNat (fromWire endianness 2 piece)))
  | .stringPiece16 => .bytes (piece.drop 2)

/-- A width the eight bytes of a result have room for. -/
def Narrow : ReadOp → Prop
  | .bytesToUInt64 numLen => numLen.toNat ≤ 8
  | _ => True

/-! ## The cursor -/

/-- The cursor is in the buffer and the buffer is in memory. -/
structure Valid (r : DataReader) : Prop where
  inside : r.pos.toNat ≤ r.len.toNat
  memory : r.len.toNat ≤ r.data.length

/-- What is left of the buffer. -/
def rest (r : DataReader) : List UInt8 := (r.data.take r.len.toNat).drop r.pos.toNat

variable {r next mid : DataReader}

private theorem create_valid (memory : UInt32.toNat len ≤ data.length) (endianness : Endianness) :
    Valid (DataReader.create data len endianness) :=
  ⟨Nat.zero_le _, memory⟩

private theorem Valid.rest_length (valid : Valid r) :
    (rest r).length = r.len.toNat - r.pos.toNat := by
  rw [rest, List.length_drop, List.length_take_of_le valid.memory]

private theorem Valid.remaining (valid : Valid r) : (r.len - r.pos).toNat = (rest r).length := by
  rw [valid.rest_length, UInt32.toNat_sub_of_le]
  exact UInt32.le_iff_toNat_le.mpr valid.inside

private theorem Valid.canRead_iff (valid : Valid r) (size : UInt32) :
    r.canRead size = true ↔ size.toNat ≤ (rest r).length := by
  rw [DataReader.canRead, decide_eq_true_eq, UInt32.le_iff_toNat_le, valid.remaining]

/-- Inside the buffer, memory is what is left of the buffer. -/
theorem Valid.rest_take (valid : Valid r) (within : count ≤ (rest r).length) :
    (r.data.drop r.pos.toNat).take count = (rest r).take count := by
  have length := valid.rest_length
  rw [rest, List.drop_take, List.take_take, Nat.min_eq_left (by omega)]

/-- A call that took the next `count` bytes. -/
structure Advanced (r : DataReader) (count : Nat) (next : DataReader) : Prop where
  data : next.data = r.data
  len : next.len = r.len
  endianness : next.endianness = r.endianness
  pos : next.pos.toNat = r.pos.toNat + count
  within : count ≤ (rest r).length

private theorem Advanced.valid (moved : Advanced r count next) (valid : Valid r) : Valid next := by
  have within := moved.within
  rw [valid.rest_length] at within
  have inside := valid.inside
  refine ⟨?_, ?_⟩
  · rw [moved.pos, moved.len]
    omega
  · rw [moved.len, moved.data]
    exact valid.memory

private theorem Advanced.rest_eq (moved : Advanced r count next) :
    rest next = (rest r).drop count := by
  rw [rest, rest, moved.data, moved.len, moved.pos, List.drop_drop]

private theorem Advanced.trans (first : Advanced r count mid) (second : Advanced mid more next) :
    Advanced r (count + more) next := by
  have within := second.within
  have before := first.within
  rw [first.rest_eq, List.length_drop] at within
  refine ⟨second.data.trans first.data, second.len.trans first.len,
    second.endianness.trans first.endianness, ?_, by omega⟩
  rw [second.pos, first.pos, Nat.add_assoc]

private theorem onFailure_valid (valid : Valid r) : Valid r.onFailure :=
  ⟨Nat.le_refl _, valid.memory⟩

private theorem onFailure_rest (valid : Valid r) : rest r.onFailure = [] := by
  apply List.eq_nil_of_length_eq_zero
  rw [(onFailure_valid valid).rest_length]
  exact Nat.sub_self _

private theorem Advanced.onFailure (moved : Advanced r count next) :
    next.onFailure = r.onFailure := by
  have data := moved.data
  have len := moved.len
  have order := moved.endianness
  cases next
  simp only at data len order
  simp only [DataReader.onFailure, data, len, order]

/-! ## One call -/

private theorem readBytes_fits (valid : Valid r) (size : UInt32)
    (fits : size.toNat ≤ (rest r).length) :
    ∃ next, r.readBytes size = (some ((rest r).take size.toNat), next) ∧
      Advanced r size.toNat next := by
  have allowed := (valid.canRead_iff size).mpr fits
  refine ⟨{ r with pos := r.pos + size }, ?_, rfl, rfl, rfl, ?_, fits⟩
  · rw [DataReader.readBytes, if_pos allowed, valid.rest_take fits]
  · have bound := r.len.toNat_lt
    have inside := valid.inside
    rw [valid.rest_length] at fits
    rw [UInt32.toNat_add]
    omega

private theorem readUInt_fits (valid : Valid r) (type : Unsigned α)
    (fits : type.width ≤ (rest r).length) :
    ∃ next, r.readUInt type =
        (some (type.ofNat (fromWire r.endianness type.width ((rest r).take type.width))), next) ∧
      Advanced r type.width next := by
  obtain ⟨next, read, moved⟩ := readBytes_fits valid type.size (by rwa [type.size_toNat])
  rw [type.size_toNat] at read moved
  exact ⟨next, by rw [readUInt_eq, read]; rfl, moved⟩

private theorem readBytes_short (valid : Valid r) (size : UInt32)
    (short : (rest r).length < size.toNat) : r.readBytes size = (none, r.onFailure) := by
  have refused : ¬ r.canRead size = true := fun allowed =>
    absurd ((valid.canRead_iff size).mp allowed) (by omega)
  rw [DataReader.readBytes, if_neg refused]

private theorem readUInt_short (valid : Valid r) (type : Unsigned α)
    (short : (rest r).length < type.width) : r.readUInt type = (none, r.onFailure) := by
  rw [readUInt_eq, readBytes_short valid type.size (by rwa [type.size_toNat])]
  rfl

/-- The guard of a string piece sees the low 32 bits of its size, and so does the cursor. -/
theorem readStringPiece_passes (valid : Valid r) (size : UInt64)
    (passes : size.toNat % 2 ^ 32 ≤ (rest r).length) :
    ∃ next, r.readStringPiece size = (some ((r.data.drop r.pos.toNat).take size.toNat), next) ∧
      Advanced r (size.toNat % 2 ^ 32) next := by
  have allowed : r.canRead size.toUInt32 = true := by
    rw [valid.canRead_iff, UInt64.toNat_toUInt32]
    exact passes
  refine ⟨{ r with pos := (r.pos.toUInt64 + size).toUInt32 }, ?_, rfl, rfl, rfl, ?_, passes⟩
  · rw [DataReader.readStringPiece, if_pos allowed]
  · have bound := r.len.toNat_lt
    have inside := valid.inside
    rw [valid.rest_length] at passes
    rw [UInt64.toNat_toUInt32, UInt64.toNat_add, UInt32.toNat_toUInt64]
    omega

private theorem readStringPiece_refused (valid : Valid r) (size : UInt64)
    (refused : (rest r).length < size.toNat % 2 ^ 32) :
    r.readStringPiece size = (none, r.onFailure) := by
  have stopped : ¬ r.canRead size.toUInt32 = true := by
    rw [valid.canRead_iff, UInt64.toNat_toUInt32]
    exact Nat.not_le.mpr refused
  rw [DataReader.readStringPiece, if_neg stopped]

/-- A partial-width integer is the number its bytes denote. -/
theorem readBytesToUInt64_value (endianness : Endianness) (piece : List UInt8)
    (narrow : piece.length ≤ 8) :
    (if endianness = .hostOrder then
        UInt64.ofNat (valueOf ((piece ++ List.replicate (8 - piece.length) 0).take 8))
      else hostToNet uint64 (UInt64.ofNat (valueOf
        ((List.replicate (8 - piece.length) 0 ++ piece).drop (piece.length - 8))))) =
      UInt64.ofNat (fromWire endianness piece.length piece) := by
  have value := partial_width_value endianness piece.length
    (fromWire endianness piece.length piece) narrow
  rwa [ordered_fromWire, Nat.mod_eq_of_lt (fromWire_lt endianness piece)] at value

/-- Past its length field a string piece of 16 bits is a plain string piece. -/
theorem readStringPiece16_announced (valid : Valid r) (two : 2 ≤ (rest r).length) :
    ∃ mid size, r.readStringPiece16 = mid.readStringPiece size ∧ Advanced r 2 mid ∧
      size.toNat = fromWire r.endianness 2 ((rest r).take 2) ∧ size.toNat < 2 ^ 32 := by
  obtain ⟨mid, read, moved⟩ := readUInt_fits valid uint16 two
  have length : ((rest r).take 2).length = 2 := List.length_take_of_le two
  have bound := fromWire_lt r.endianness ((rest r).take 2)
  rw [length] at bound
  refine ⟨mid, (UInt16.ofNat (fromWire r.endianness 2 ((rest r).take 2))).toUInt64, ?_, moved, ?_, ?_⟩
  · rw [DataReader.readStringPiece16, DataReader.readUInt16, read]
    rfl
  · rw [UInt16.toNat_toUInt64, UInt16.toNat_ofNat']
    exact Nat.mod_eq_of_lt bound
  · rw [UInt16.toNat_toUInt64, UInt16.toNat_ofNat']
    omega

/-- A call whose bytes are there takes and decodes them. -/
theorem run_fits (valid : Valid r) (op : ReadOp) (narrow : Narrow op)
    (fits : need r.endianness (rest r) op ≤ (rest r).length) :
    ∃ next, op.run r =
        (some (decoded r.endianness ((rest r).take (need r.endianness (rest r) op)) op), next) ∧
      Advanced r (need r.endianness (rest r) op) next := by
  cases op with
  | uint8 =>
    obtain ⟨next, read, moved⟩ := readBytes_fits valid 1 fits
    exact ⟨next, by rw [ReadOp.run, DataReader.readUInt8, read]; rfl, moved⟩
  | uint16 =>
    obtain ⟨next, read, moved⟩ := readUInt_fits valid uint16 fits
    exact ⟨next, by rw [ReadOp.run, DataReader.readUInt16, read]; rfl, moved⟩
  | uint32 =>
    obtain ⟨next, read, moved⟩ := readUInt_fits valid uint32 fits
    exact ⟨next, by rw [ReadOp.run, DataReader.readUInt32, read]; rfl, moved⟩
  | uint64 =>
    obtain ⟨next, read, moved⟩ := readUInt_fits valid uint64 fits
    exact ⟨next, by rw [ReadOp.run, DataReader.readUInt64, read]; rfl, moved⟩
  | bytes size =>
    obtain ⟨next, read, moved⟩ := readBytes_fits valid size fits
    exact ⟨next, by rw [ReadOp.run, read]; rfl, moved⟩
  | bytesToUInt64 numLen =>
    obtain ⟨next, read, moved⟩ := readBytes_fits valid numLen fits
    have length : ((rest r).take numLen.toNat).length = numLen.toNat := List.length_take_of_le fits
    have value := readBytesToUInt64_value r.endianness ((rest r).take numLen.toNat)
      (by rw [length]; exact narrow)
    rw [length] at value
    refine ⟨next, ?_, moved⟩
    simp only [ReadOp.run, DataReader.readBytesToUInt64, read, Option.map_some, value]
    rfl
  | ufloat16 =>
    obtain ⟨next, read, moved⟩ := readUInt_fits valid uint16 fits
    refine ⟨next, ?_, moved⟩
    rw [ReadOp.run, DataReader.readUFloat16, DataReader.readUInt16, read]
    rfl
  | stringPiece16 =>
    simp only [need] at fits ⊢
    obtain ⟨mid, size, shape, moved, announced, small⟩ :=
      readStringPiece16_announced valid (by omega)
    have left := moved.rest_eq
    have low : size.toNat % 2 ^ 32 = size.toNat := Nat.mod_eq_of_lt small
    have there : size.toNat ≤ (rest mid).length := by
      rw [left, List.length_drop]
      omega
    obtain ⟨next, read, further⟩ := readStringPiece_passes (moved.valid valid) size (by omega)
    rw [(moved.valid valid).rest_take there, left] at read
    refine ⟨next, ?_, announced ▸ low ▸ moved.trans further⟩
    rw [ReadOp.run, shape, read, ← announced]
    simp only [decoded, Option.map_some, List.drop_take, Nat.add_sub_cancel_left]

/-- A call whose bytes are not all there fails and leaves nothing. -/
theorem run_short (valid : Valid r) (op : ReadOp)
    (short : (rest r).length < need r.endianness (rest r) op) : op.run r = (none, r.onFailure) := by
  cases op with
  | uint8 => rw [ReadOp.run, DataReader.readUInt8, readBytes_short valid 1 short]; rfl
  | uint16 => rw [ReadOp.run, DataReader.readUInt16, readUInt_short valid uint16 short]; rfl
  | uint32 => rw [ReadOp.run, DataReader.readUInt32, readUInt_short valid uint32 short]; rfl
  | uint64 => rw [ReadOp.run, DataReader.readUInt64, readUInt_short valid uint64 short]; rfl
  | bytes size => rw [ReadOp.run, readBytes_short valid size short]; rfl
  | bytesToUInt64 numLen =>
    rw [ReadOp.run, DataReader.readBytesToUInt64, readBytes_short valid numLen short]; rfl
  | ufloat16 =>
    rw [ReadOp.run, DataReader.readUFloat16, DataReader.readUInt16,
      readUInt_short valid uint16 short]
    rfl
  | stringPiece16 =>
    simp only [need] at short
    by_cases two : 2 ≤ (rest r).length
    · obtain ⟨mid, size, shape, moved, announced, small⟩ := readStringPiece16_announced valid two
      have missing : (rest mid).length < size.toNat % 2 ^ 32 := by
        rw [moved.rest_eq, List.length_drop, Nat.mod_eq_of_lt small]
        omega
      rw [ReadOp.run, shape, readStringPiece_refused (moved.valid valid) size missing,
        moved.onFailure]
      rfl
    · have field := readUInt_short valid uint16 (Nat.lt_of_not_le two)
      rw [ReadOp.run, DataReader.readStringPiece16, DataReader.readUInt16, field]
      rfl

/-! ## Sequences of calls -/

/-- A piece of the input a call decodes has exactly the bytes it needs. -/
def Exact (endianness : Endianness) (op : ReadOp) (piece : List UInt8) : Prop :=
  piece.length = need endianness piece op

private theorem need_take (endianness : Endianness) (op : ReadOp) (bytes : List UInt8) :
    need endianness (bytes.take (need endianness bytes op)) op = need endianness bytes op := by
  cases op with
  | stringPiece16 =>
    simp only [need, List.take_take]
    rw [Nat.min_eq_left (by omega)]
  | _ => rfl

private theorem exact_take (fits : need endianness bytes op ≤ bytes.length) :
    Exact endianness op (bytes.take (need endianness bytes op)) := by
  rw [Exact, need_take, List.length_take_of_le fits]

/-- What a sequence of calls leaves of a reader that started with `left`. -/
structure Consumed (r : DataReader) (values : List (Option ReadValue)) (ops : List ReadOp)
    (last : DataReader) : Prop where
  valid : Valid last
  len : last.len = r.len
  data : last.data = r.data
  endianness : last.endianness = r.endianness
  decoded : none ∉ values → ∃ pieces, List.Forall₂ (Exact r.endianness) ops pieces ∧
    values = List.zipWith (fun op piece => some (decoded r.endianness piece op)) ops pieces ∧
    rest r = pieces.flatten ++ rest last
  failed : none ∈ values → rest last = []

/-- Nothing comes back once nothing is left. -/
theorem Consumed.drained (consumed : Consumed r values ops last) (drained : rest r = []) :
    rest last = [] := by
  by_cases failed : none ∈ values
  · exact consumed.failed failed
  · obtain ⟨pieces, _, _, split⟩ := consumed.decoded failed
    rw [drained] at split
    exact (List.append_eq_nil_iff.mp split.symm).2

private theorem readAll_consumed (valid : Valid r) (ops : List ReadOp)
    (narrow : ∀ op ∈ ops, Narrow op) : Consumed r (readAll r ops).1 ops (readAll r ops).2 := by
  induction ops generalizing r with
  | nil => exact ⟨valid, rfl, rfl, rfl, fun _ => ⟨[], .nil, rfl, rfl⟩, by simp [readAll]⟩
  | cons op ops ih =>
    have others : ∀ op ∈ ops, Narrow op := fun op member =>
      narrow op (List.mem_cons_of_mem _ member)
    by_cases fits : need r.endianness (rest r) op ≤ (rest r).length
    · obtain ⟨next, ran, moved⟩ := run_fits valid op (narrow op List.mem_cons_self) fits
      have onward := ih (moved.valid valid) others
      simp only [readAll, ran]
      refine ⟨onward.valid, onward.len.trans moved.len, onward.data.trans moved.data,
        onward.endianness.trans moved.endianness, ?_, ?_⟩
      · intro fine
        obtain ⟨pieces, exact', values, split⟩ :=
          onward.decoded fun member => fine (List.mem_cons_of_mem _ member)
        rw [moved.endianness] at exact' values
        refine ⟨_ :: pieces, .cons (exact_take fits) exact', by rw [values]; rfl, ?_⟩
        rw [List.flatten_cons, List.append_assoc, ← split, moved.rest_eq, List.take_append_drop]
      · intro failed
        exact onward.failed ((List.mem_cons.mp failed).resolve_left (by simp))
    · have ran := run_short valid op (Nat.lt_of_not_le fits)
      have onward := ih (onFailure_valid valid) others
      simp only [readAll, ran]
      refine ⟨onward.valid, onward.len, onward.data, onward.endianness, ?_, ?_⟩
      · intro fine
        exact absurd List.mem_cons_self fine
      · intro _
        exact onward.drained (onFailure_rest valid)

private theorem run_some_iff (valid : Valid r) (op : ReadOp) (narrow : Narrow op) :
    (op.run r).1.isSome = true ↔ need r.endianness (rest r) op ≤ (rest r).length := by
  by_cases fits : need r.endianness (rest r) op ≤ (rest r).length
  · obtain ⟨next, ran, _⟩ := run_fits valid op narrow fits
    simp [ran, fits]
  · simp [run_short valid op (Nat.lt_of_not_le fits), fits]

private theorem Valid.bytesRemaining (valid : Valid r) :
    r.bytesRemaining.toNat = (rest r).length := by
  rw [DataReader.bytesRemaining, UInt32.toNat_toUInt64, valid.remaining]

/-- Whatever calls were made on a buffer, the cursor is inside it and the bytes remaining are
those behind the cursor. The next call succeeds exactly if what it needs is there. Calls that
all succeeded have decoded consecutive pieces from the start of the buffer up to the cursor. Once
a call has failed, the reader is done and a call that needs a byte fails. -/
theorem reader_consumes_prefix (endianness : Endianness) (data : List UInt8) (len : UInt32)
    (memory : len.toNat ≤ data.length) (before : List ReadOp) (op : ReadOp)
    (narrow : ∀ op ∈ before, Narrow op) (allowed : Narrow op) :
    let start := DataReader.create data len endianness
    let values := (readAll start before).1
    let r := (readAll start before).2
    let left := (data.take len.toNat).drop r.pos.toNat
    r.pos ≤ r.len ∧ r.len = len ∧ r.bytesRemaining.toNat = len.toNat - r.pos.toNat ∧
    ((op.run r).1.isSome = true ↔ need endianness left op ≤ r.bytesRemaining.toNat) ∧
    (none ∉ values → ∃ pieces, List.Forall₂ (Exact endianness) before pieces ∧
      values = List.zipWith (fun op piece => some (decoded endianness piece op)) before pieces ∧
      pieces.flatten = data.take r.pos.toNat) ∧
    (none ∈ values → r.isDoneReading = true ∧
      (1 ≤ need endianness left op → (op.run r).1 = none)) := by
  intro start values r left
  have consumed : Consumed start values before r :=
    readAll_consumed (create_valid memory endianness) before narrow
  have order : r.endianness = endianness := consumed.endianness
  have length : r.len = len := consumed.len
  have same : left = rest r := by
    rw [rest, consumed.data, length]
    rfl
  have valid := consumed.valid
  have remaining := valid.bytesRemaining
  have succeeds := run_some_iff valid op allowed
  rw [order] at succeeds
  rw [same]
  refine ⟨UInt32.le_iff_toNat_le.mpr valid.inside, length, ?_, ?_, ?_, ?_⟩
  · rw [remaining, valid.rest_length, length]
  · rw [remaining]
    exact succeeds
  · intro fine
    obtain ⟨pieces, exact', decodes, split⟩ := consumed.decoded fine
    refine ⟨pieces, exact', decodes, ?_⟩
    have whole : rest start = data.take len.toNat := rfl
    have inside := valid.inside
    rw [length] at inside
    rw [whole, ← same] at split
    have front : (data.take len.toNat).take r.pos.toNat = pieces.flatten :=
      List.append_cancel_right ((List.take_append_drop _ _).trans split)
    rw [← front, List.take_take, Nat.min_eq_left inside]
  · intro failed
    have drained := consumed.failed failed
    have behind := valid.rest_length
    rw [drained, List.length_nil] at behind
    refine ⟨?_, fun needs => ?_⟩
    · rw [DataReader.isDoneReading, beq_iff_eq, ← UInt32.toNat_inj]
      have inside := valid.inside
      omega
    · rw [drained] at succeeds needs
      rw [← Option.not_isSome_iff_eq_none, succeeds]
      exact Nat.not_le.mpr needs

/-- A string of two bytes is there and a second 16-bit number is not. -/
theorem short_buffer_prefix :
    let start := DataReader.create [0, 2, 7, 8, 9] 5 .networkOrder
    let r := (readAll start [.stringPiece16, .uint16]).2
    (readAll start [.stringPiece16, .uint16]).1 = [some (.bytes [7, 8]), none] ∧
      r.isDoneReading = true ∧ (ReadOp.uint8.run r).1 = none := by
  intro start r
  have values : (readAll start [.stringPiece16, .uint16]).1 = [some (.bytes [7, 8]), none] := by
    decide +kernel
  obtain ⟨_, _, _, _, _, failed⟩ := reader_consumes_prefix .networkOrder [0, 2, 7, 8, 9] 5
    (by decide) [.stringPiece16, .uint16] .uint8 (by simp [Narrow]) trivial
  have member : none ∈ (readAll start [.stringPiece16, .uint16]).1 := by
    rw [values]
    exact List.mem_cons_of_mem _ List.mem_cons_self
  obtain ⟨done, fails⟩ := failed member
  exact ⟨values, done, fails (Nat.le_refl 1)⟩

/-! ## The arguments the guard does not see -/

/-- Any call on a reader, with any arguments. -/
inductive Call where
  | read (op : ReadOp)
  | stringPiece (size : UInt64)

def Call.run (r : DataReader) : Call → DataReader
  | .read op => (op.run r).2
  | .stringPiece size => (r.readStringPiece size).2

private theorem call_valid (valid : Valid r) (call : Call) : Valid (Call.run r call) := by
  cases call with
  | stringPiece size =>
    by_cases passes : size.toNat % 2 ^ 32 ≤ (rest r).length
    · obtain ⟨next, read, moved⟩ := readStringPiece_passes valid size passes
      rw [Call.run, read]
      exact moved.valid valid
    · rw [Call.run, readStringPiece_refused valid size (Nat.lt_of_not_le passes)]
      exact onFailure_valid valid
  | read op =>
    by_cases fits : need r.endianness (rest r) op ≤ (rest r).length
    · by_cases narrow : Narrow op
      · obtain ⟨next, ran, moved⟩ := run_fits valid op narrow fits
        rw [Call.run, ran]
        exact moved.valid valid
      · -- a wide integer moves the cursor as its bytes would
        cases op with
        | bytesToUInt64 numLen =>
          obtain ⟨next, read, moved⟩ := readBytes_fits valid numLen fits
          rw [Call.run, ReadOp.run, DataReader.readBytesToUInt64, read]
          exact moved.valid valid
        | _ => exact absurd trivial narrow
    · rw [Call.run, run_short valid op (Nat.lt_of_not_le fits)]
      exact onFailure_valid valid

/-- Every state a reader reaches is valid, whatever it was called with. -/
theorem reached_valid (endianness : Endianness) (memory : UInt32.toNat len ≤ data.length)
    (calls : List Call) : Valid (calls.foldl Call.run (DataReader.create data len endianness)) := by
  have kept : ∀ r, Valid r → Valid (calls.foldl Call.run r) := by
    induction calls with
    | nil => exact fun r valid => valid
    | cons call rest ih => exact fun r valid => ih _ (call_valid valid call)
  exact kept _ (create_valid memory endianness)

/-- `ReadStringPiece` succeeds exactly for a size that is there, and takes as many bytes. -/
def StringExact (r : DataReader) (size : UInt64) : Prop :=
  ((r.readStringPiece size).1.isSome = true ↔ size ≤ r.bytesRemaining) ∧
  ∀ bytes, (r.readStringPiece size).1 = some bytes →
    bytes.length = size.toNat ∧ bytes <+: rest r ∧
    (r.readStringPiece size).2.bytesRemaining = r.bytesRemaining - size

/-- How many bytes `ReadBytesToUInt64` stores through its result pointer. -/
def stored (r : DataReader) (numLen : UInt32) : Nat := ((r.readBytes numLen).1.getD []).length

/-- `ReadBytesToUInt64` refuses a width above eight and stores no more than the result holds. -/
def WidthChecked (r : DataReader) (numLen : UInt32) : Prop :=
  (8 < numLen.toNat → (r.readBytesToUInt64 numLen).1 = none) ∧ stored r numLen ≤ 8

private theorem stringExact_iff (valid : Valid r) (size : UInt64) :
    StringExact r size ↔
      size.toNat < 2 ^ 32 ∨ r.bytesRemaining.toNat < size.toNat % 2 ^ 32 := by
  have remaining := valid.bytesRemaining
  have bound : (rest r).length < 2 ^ 32 := by
    rw [valid.rest_length]
    exact Nat.lt_of_le_of_lt (Nat.sub_le _ _) r.len.toNat_lt
  rw [remaining]
  by_cases passes : size.toNat % 2 ^ 32 ≤ (rest r).length
  · obtain ⟨next, read, moved⟩ := readStringPiece_passes valid size passes
    constructor
    · intro exact'
      have within := exact'.1.mp (by rw [read]; rfl)
      rw [UInt64.le_iff_toNat_le, remaining] at within
      omega
    · intro small
      have low : size.toNat % 2 ^ 32 = size.toNat := Nat.mod_eq_of_lt (by omega)
      rw [low] at passes moved
      rw [valid.rest_take passes] at read
      have fits : size ≤ r.bytesRemaining := by
        rw [UInt64.le_iff_toNat_le, remaining]
        exact passes
      refine ⟨by simp [read, fits], ?_⟩
      intro bytes taken
      rw [read, Option.some.injEq] at taken
      rw [read, ← taken]
      refine ⟨List.length_take_of_le passes, List.take_prefix _ _, ?_⟩
      rw [← UInt64.toNat_inj, (moved.valid valid).bytesRemaining, moved.rest_eq, List.length_drop,
        UInt64.toNat_sub_of_le _ _ fits, remaining]
  · have read := readStringPiece_refused valid size (Nat.lt_of_not_le passes)
    have large : ¬ size ≤ r.bytesRemaining := by
      rw [UInt64.le_iff_toNat_le, remaining]
      have low := Nat.mod_le size.toNat (2 ^ 32)
      omega
    refine iff_of_true ⟨by simp [read, large], by simp [read]⟩ (.inr (Nat.lt_of_not_le passes))

private theorem widthChecked_iff (valid : Valid r) (numLen : UInt32) :
    WidthChecked r numLen ↔ numLen.toNat ≤ 8 ∨ r.bytesRemaining.toNat < numLen.toNat := by
  rw [valid.bytesRemaining]
  by_cases fits : numLen.toNat ≤ (rest r).length
  · obtain ⟨next, read, _⟩ := readBytes_fits valid numLen fits
    have count : stored r numLen = numLen.toNat := by
      rw [stored, read]
      exact List.length_take_of_le fits
    rw [WidthChecked, count]
    constructor
    · intro checked
      exact .inl checked.2
    · intro small
      have narrow : numLen.toNat ≤ 8 := by omega
      exact ⟨fun wide => absurd wide (by omega), narrow⟩
  · have read := readBytes_short valid numLen (Nat.lt_of_not_le fits)
    refine iff_of_true ⟨fun _ => ?_, ?_⟩ (.inr (Nat.lt_of_not_le fits))
    · rw [DataReader.readBytesToUInt64, read]
      rfl
    · rw [stored, read]
      exact Nat.zero_le 8

/-- The size of a string piece is checked in full unless its low 32 bits alone pass, and a width
is checked unless more than eight bytes of it are there. -/
theorem size_arguments_checked_iff (r : DataReader) (valid : Valid r) (size : UInt64)
    (numLen : UInt32) :
    (StringExact r size ↔
      size.toNat < 2 ^ 32 ∨ r.bytesRemaining.toNat < size.toNat % 2 ^ 32) ∧
    (WidthChecked r numLen ↔ numLen.toNat ≤ 8 ∨ r.bytesRemaining.toNat < numLen.toNat) :=
  ⟨stringExact_iff valid size, widthChecked_iff valid numLen⟩

theorem ordinary_sizes_checked :
    let r := DataReader.create [1, 2, 3] 3 .networkOrder
    StringExact r 2 ∧ StringExact r 4 ∧ WidthChecked r 3 ∧ WidthChecked r 9 := by
  intro r
  have valid : Valid r := create_valid (by decide) .networkOrder
  have small := size_arguments_checked_iff r valid 2 3
  have large := size_arguments_checked_iff r valid 4 9
  exact ⟨small.1.mpr (.inl (by decide)), large.1.mpr (.inl (by decide)),
    small.2.mpr (.inl (by decide)), large.2.mpr (.inr (by decide))⟩

/-- A size of 2^32 passes the guard as 0, and a width of nine stores nine bytes. -/
theorem large_sizes_pass :
    let r := DataReader.create (List.replicate 9 7) 9 .hostOrder
    Valid r ∧ (r.readStringPiece (2 ^ 32)).1.isSome = true ∧ ¬ 2 ^ 32 ≤ r.bytesRemaining ∧
      (r.readBytesToUInt64 9).1.isSome = true ∧ stored r 9 = 9 := by
  intro r
  exact ⟨create_valid (by decide) .hostOrder, by decide +kernel, by decide +kernel,
    by decide +kernel, by decide +kernel⟩

end TcpCongestion.ReaderPrefix
