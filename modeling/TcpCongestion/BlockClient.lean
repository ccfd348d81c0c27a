import TcpCongestion.ByteCodecProofs
import TcpCongestion.Posix
import TcpCongestion.Runs
import TcpCongestion.Words

/-! The send loop of `block_client.cc`. Each write offers the buffer from its start, and its
result is subtracted as it is, so the loop sends what it announces in exactly the runs in which
no write fails and the first one that is accepted takes the header. -/
namespace TcpCongestion.BlockClient
open Posix ByteCodec ByteCodecProofs LittleEndian Runs Words

def kBufferLength : Int32 := 1400
def clientId : Int32 := 12
def totalSend : Int32 := 100 * 1024 * 1024

/-- A call of `write`: the size asked for and the bytes the socket took. -/
structure Write where
  size : UInt32
  accepted : List UInt8

/-- The variables of the loop, with `m_running` and the calls made so far. -/
structure State where
  running : Bool
  byteRemain : Int32
  firstPacket : Bool
  sendBuff : List UInt8
  room : 1400 ≤ sendBuff.length
  writes : List Write

/-- The buffer after the two `WriteUInt32` calls. -/
def header (sendBuff : List UInt8) (room : 1400 ≤ sendBuff.length) : List UInt8 :=
  let writer := DataWriter.create sendBuff 1400 .networkOrder room
  ((writer.writeUInt32 clientId.toUInt32).2.writeUInt32 totalSend.toUInt32).2.buf

/-- The announcement of the client and of what it sends. -/
def announced : List UInt8 := announcement clientId.toUInt32 totalSend.toUInt32

private theorem header_eq (sendBuff : List UInt8) (room : 1400 ≤ sendBuff.length) :
    header sendBuff room = announced ++ sendBuff.drop 8 :=
  write_announcement sendBuff 1400 room clientId.toUInt32 totalSend.toUInt32 (by decide)

def State.writeHeader (s : State) : State :=
  if s.firstPacket then
    { s with
      sendBuff := header s.sendBuff s.room
      firstPacket := false
      room := by
        have room := s.room
        rw [header_eq, List.length_append, List.length_drop]
        have eight : announced.length = 8 := announcement_length _ _
        omega }
  else s

/-- The value `write` returns. -/
def returned (size : UInt32) : WriteResult → Int32
  | .accepted count => Int32.ofNat ((WriteResult.accepted count).count size.toNat)
  | .error _ => -1

/-- One turn of the loop, which ends on a signal and once nothing remains. -/
def State.turn (s : State) (result : WriteResult) : Option State :=
  if s.running = true ∧ s.byteRemain ≠ 0 then
    let sendSize := (min kBufferLength s.byteRemain).toUInt32
    let s := s.writeHeader
    some { s with
      byteRemain := s.byteRemain - returned sendSize result
      writes := s.writes ++ [⟨sendSize, s.sendBuff.take (result.count sendSize.toNat)⟩] }
  else none

inductive Event where
  | write (result : WriteResult)
  | signal

/-- `signal_exit_handler` may run at any time. -/
def step (s : State) : Event → Option State
  | .write result => s.turn result
  | .signal => some { s with running := false }

def start : State where
  running := true
  byteRemain := totalSend
  firstPacket := true
  sendBuff := List.replicate 1400 0
  room := by rw [List.length_replicate]
  writes := []

/-- The bytes the socket has taken. -/
def accepted (s : State) : List UInt8 := s.writes.flatMap (·.accepted)

/-- What the loop is to keep: the count of what remains, the sizes it asks for, and at its end
the announced number of bytes with the announcement in front. -/
structure Exact (s : State) : Prop where
  remain : s.byteRemain.toInt = totalSend.toInt - (accepted s).length
  asks : ∀ write ∈ s.writes, 1 ≤ write.size.toNat ∧ write.size.toNat ≤ 1400
  complete : s.byteRemain = 0 →
    (accepted s).length = totalSend.toInt ∧ (accepted s).take 8 = announced

/-- What the socket takes of a line, if it is asked for one. -/
def Event.count : Event → Nat
  | .write (.accepted count) => min count 1400
  | .write (.error _) | .signal => 0

/-- The first write of which the socket takes anything takes six bytes or more. -/
def HeaderTaken (events : List Event) : Prop :=
  ∀ first, events.find? (0 < ·.count) = some first → 6 ≤ first.count

/-! ## Pieces from the start of the buffer -/

private theorem announced_eq : announced = [0, 0, 0, 12, 6, 64, 0, 0] := by decide

private theorem getElem_start {piece whole : List UInt8} (part : piece <+: whole)
    (inside : i < piece.length) : piece[i]? = whole[i]? := by
  obtain ⟨tail, rfl⟩ := part
  rw [List.getElem?_append_left inside]

/-- A byte of the announcement where a piece holds it. -/
theorem announced_byte {piece : List UInt8} (starts : piece <+: announced ++ rest) (early : i < 8)
    (inside : i < piece.length) : piece[i]? = announced[i]? := by
  rw [getElem_start starts inside, List.getElem?_append_left]
  exact early

/-- The first bytes of a stream of such pieces are zero, wherever it is cut. -/
theorem opening_zero {pieces : List (List UInt8)}
    (starts : ∀ piece ∈ pieces, piece <+: announced ++ rest) (early : i < 3)
    (there : i < pieces.flatten.length) : pieces.flatten[i]? = some 0 := by
  induction pieces generalizing i with
  | nil => simp at there
  | cons piece pieces ih =>
    rw [List.flatten_cons] at there ⊢
    by_cases inside : i < piece.length
    · rw [List.getElem?_append_left inside,
        announced_byte (starts piece List.mem_cons_self) (by omega) inside, announced_eq]
      match i, early with
      | 0, _ | 1, _ | 2, _ => rfl
    · rw [List.getElem?_append_right (Nat.le_of_not_lt inside)]
      rw [List.length_append] at there
      exact ih (fun other member => starts other (List.mem_cons_of_mem _ member)) (by omega)
        (by omega)

/-- A stream of pieces, each from the start of the buffer, opens with the announcement exactly if
its first piece reaches the last byte of it that is not zero. -/
theorem opens_announced_iff {pieces : List (List UInt8)}
    (starts : ∀ piece ∈ pieces, piece <+: announced ++ rest) (enough : 8 ≤ pieces.flatten.length) :
    pieces.flatten.take 8 = announced ↔
      ∀ first, pieces.find? (fun piece => piece ≠ []) = some first → 6 ≤ first.length := by
  induction pieces with
  | nil => simp at enough
  | cons piece pieces ih =>
    have others : ∀ other ∈ pieces, other <+: announced ++ rest := fun other member =>
      starts other (List.mem_cons_of_mem _ member)
    by_cases empty : piece = []
    · subst empty
      simpa using ih others (by simpa using enough)
    · have nonempty : 0 < piece.length := List.length_pos_iff.mpr empty
      have head := starts piece List.mem_cons_self
      rw [List.find?_cons_of_pos (by simpa using empty)]
      rw [List.flatten_cons] at enough ⊢
      rw [List.length_append] at enough
      constructor
      · rintro opens first found
        cases found
        by_contra short
        -- the byte at `i` is not zero in the announcement and comes from a later piece
        obtain ⟨i, low, high, late, near⟩ : ∃ i, 3 ≤ i ∧ i ≤ 5 ∧ piece.length ≤ i ∧
            i - piece.length < 3 := ⟨max 3 piece.length, by omega, by omega, by omega, by omega⟩
        have zero := opening_zero others near (by omega)
        have byte := congrArg (·[i]?) opens
        simp only [List.getElem?_take_of_lt (show i < 8 by omega),
          List.getElem?_append_right late, zero, announced_eq] at byte
        match i, low, high with
        | 3, _, _ | 4, _, _ | 5, _, _ => simp at byte
      · intro reaches
        have six := reaches piece rfl
        apply List.ext_getElem?
        intro i
        by_cases early : i < 8
        · rw [List.getElem?_take_of_lt early]
          by_cases inside : i < piece.length
          · rw [List.getElem?_append_left inside, announced_byte head early inside]
          · have late := Nat.le_of_not_lt inside
            rw [List.getElem?_append_right late,
              opening_zero others (by omega) (by omega), announced_eq]
            obtain rfl | rfl : i = 6 ∨ i = 7 := by omega
            · rfl
            · rfl
        · rw [List.getElem?_eq_none (by rw [List.length_take]; omega),
            List.getElem?_eq_none (by rw [announced_eq]; simp; omega)]

/-! ## The loop -/

/-- The buffer from the first turn on. -/
def filled : List UInt8 := announced ++ (List.replicate 1400 0).drop 8

private theorem filled_length : filled.length = 1400 := by
  rw [filled, List.length_append, List.length_drop, List.length_replicate]
  rfl

private theorem totalSend_toInt : totalSend.toInt = 104857600 := by decide

/-- What a loop keeps as long as no write fails. -/
structure Inv (s : State) : Prop where
  remain : s.byteRemain.toInt = 104857600 - (accepted s).length
  within : (accepted s).length ≤ 104857600
  asks : ∀ write ∈ s.writes, 1 ≤ write.size.toNat ∧ write.size.toNat ≤ 1400
  fresh : s.firstPacket = true → s.sendBuff = List.replicate 1400 0
  buffer : s.firstPacket = false → s.sendBuff = filled
  pieces : ∀ write ∈ s.writes, write.accepted <+: filled

private theorem start_inv : Inv start where
  remain := by decide
  within := Nat.zero_le _
  asks := fun _ impossible => nomatch impossible
  fresh := fun _ => rfl
  buffer := by simp only [start, Bool.true_eq_false, false_implies]
  pieces := fun _ impossible => nomatch impossible

/-- Only the buffer and its flag change where the header is written. -/
theorem Inv.header (inv : Inv s) :
    s.writeHeader.running = s.running ∧ s.writeHeader.byteRemain = s.byteRemain ∧
    s.writeHeader.writes = s.writes ∧ s.writeHeader.firstPacket = false ∧
    s.writeHeader.sendBuff = filled := by
  unfold State.writeHeader
  split
  · rename_i first
    refine ⟨rfl, rfl, rfl, rfl, ?_⟩
    dsimp only
    rw [header_eq, inv.fresh first, filled]
  · rename_i later
    rw [Bool.not_eq_true] at later
    exact ⟨rfl, rfl, rfl, later, inv.buffer later⟩

/-- The size a turn asks for. -/
theorem sendSize_toNat (remain : Int32) (positive : 0 < remain.toInt) :
    ((min kBufferLength remain).toUInt32.toNat : Int) = min 1400 remain.toInt := by
  have limit : kBufferLength.toInt = 1400 := by decide
  have value : (min kBufferLength remain).toInt = min 1400 remain.toInt := by
    change (if kBufferLength ≤ remain then kBufferLength else remain).toInt = _
    split
    · rename_i line
      rw [Int32.le_iff_toInt_le] at line
      omega
    · rename_i less
      rw [Int32.le_iff_toInt_le] at less
      omega
  rw [toUInt32_toNat _ (by omega), value]

/-- A turn asks for a line, or for what remains if that is less, and takes what the socket
accepted from what remains. -/
theorem Inv.turn (inv : Inv s) (took : s.turn result = some next) :
    s.running = true ∧ 0 < s.byteRemain.toInt ∧ ∃ size : UInt32,
      (size.toNat : Int) = min 1400 s.byteRemain.toInt ∧
      next.running = true ∧ next.byteRemain = s.byteRemain - returned size result ∧
      next.firstPacket = false ∧ next.sendBuff = filled ∧
      next.writes = s.writes ++ [⟨size, filled.take (result.count size.toNat)⟩] := by
  rw [State.turn, Option.ite_none_right_eq_some] at took
  obtain ⟨⟨running, more⟩, same⟩ := took
  have nonzero : s.byteRemain.toInt ≠ 0 := fun zero => more (Int32.toInt_inj.mp zero)
  have positive : 0 < s.byteRemain.toInt := by
    have remain := inv.remain
    have within := inv.within
    omega
  obtain ⟨goes, remains, calls, opened, buffer⟩ := inv.header
  refine ⟨running, positive, _, sendSize_toNat s.byteRemain positive, ?_⟩
  cases same
  exact ⟨goes.trans running, by rw [remains], opened, buffer, by
    dsimp only
    rw [calls, buffer]⟩

private theorem accepted_write (writes : next.writes = s.writes ++ [write]) :
    accepted next = accepted s ++ write.accepted := by
  rw [accepted, accepted, writes, List.flatMap_append]
  simp

private theorem accepted_length (writes : next.writes = s.writes ++ [⟨size, filled.take count⟩])
    (few : count ≤ 1400) : (accepted next).length = (accepted s).length + count := by
  rw [accepted_write writes, List.length_append, List.length_take_of_le (by rwa [filled_length])]

private theorem forall_write {s next : State} {P : Write → Prop}
    (writes : next.writes = s.writes ++ [write])
    (before : ∀ old ∈ s.writes, P old) (last : P write) : ∀ write ∈ next.writes, P write := by
  rw [writes]
  exact List.forall_mem_append.mpr ⟨before, List.forall_mem_singleton.mpr last⟩

/-- A write that returns a count keeps the books. -/
theorem Inv.write (inv : Inv s) (took : s.turn (.accepted count) = some next) : Inv next := by
  obtain ⟨_, positive, size, asked, _, remains, opened, buffer, writes⟩ := inv.turn took
  have remain := inv.remain
  generalize taken : (WriteResult.accepted count).count size.toNat = c at *
  have most : c ≤ size.toNat := taken ▸ WriteResult.count_le size.toNat _
  have length := accepted_length writes (by omega)
  have value : (returned size (.accepted count)).toInt = c := by
    rw [returned, taken, Int32.toInt_ofNat_of_lt (by omega)]
  refine ⟨?_, by omega, forall_write writes inv.asks (by dsimp only; omega),
    fun first => absurd (opened.symm.trans first) Bool.false_ne_true, fun _ => buffer,
    forall_write writes inv.pieces (List.take_prefix _ _)⟩
  rw [remains, Int32.toInt_sub, value, length, Int.bmod_eq_of_le (by omega) (by omega)]
  omega

/-- What remains is what is left of the total. -/
def Counts (s : State) : Prop := s.byteRemain.toInt = totalSend.toInt - (accepted s).length

/-- A write that fails adds one to what remains. -/
theorem Inv.fails (inv : Inv s) (took : s.turn (.error errno) = some next) : ¬ Counts next := by
  obtain ⟨_, positive, size, _, _, remains, _, _, writes⟩ := inv.turn took
  have remain := inv.remain
  have grown := accepted_write writes
  have same : (accepted next).length = (accepted s).length := by
    rw [grown, List.length_append]
    rfl
  have value : next.byteRemain.toInt = s.byteRemain.toInt + 1 := by
    have minus : (returned size (.error errno)).toInt = -1 := rfl
    rw [remains, Int32.toInt_sub, minus, Int.bmod_eq_of_le (by omega) (by omega)]
    omega
  rw [Counts, value, same, totalSend_toInt]
  omega

def NotFailing (_ : State) (event : Event) : Prop := ∀ errno, event ≠ .write (.error errno)

private theorem Inv.step (inv : Inv s) (fine : NotFailing s event)
    (took : step s event = some next) : Inv next := by
  cases event with
  | signal =>
    cases took
    exact ⟨inv.remain, inv.within, inv.asks, inv.fresh, inv.buffer, inv.pieces⟩
  | write result =>
    cases result with
    | error errno => exact absurd rfl (fine errno)
    | accepted count => exact inv.write took

/-- The size of the first write of which the socket took anything. -/
def firstAccepted (s : State) : Option Nat :=
  (s.writes.find? (fun write => write.accepted ≠ [])).map (·.accepted.length)

/-- At the end of the loop all is sent, with the announcement in front if the first write took
it. -/
theorem Inv.ended (inv : Inv s) (zero : s.byteRemain = 0) :
    (accepted s).length = 104857600 ∧
      ((accepted s).take 8 = announced ↔ ∀ first, firstAccepted s = some first → 6 ≤ first) := by
  have length : (accepted s).length = 104857600 := by
    have remain := inv.remain
    rw [zero] at remain
    have none : (0 : Int32).toInt = 0 := rfl
    omega
  refine ⟨length, ?_⟩
  have flat : accepted s = (s.writes.map (·.accepted)).flatten := List.flatMap_def
  have starts : ∀ piece ∈ s.writes.map (·.accepted), piece <+: filled := by
    intro piece member
    obtain ⟨write, called, rfl⟩ := List.mem_map.mp member
    exact inv.pieces write called
  rw [flat] at length ⊢
  rw [opens_announced_iff starts (by omega), List.find?_map, firstAccepted]
  constructor
  · rintro reaches _ found
    obtain ⟨write, called, rfl⟩ := Option.map_eq_some_iff.mp found
    exact reaches write.accepted (Option.map_eq_some_iff.mpr ⟨write, called, rfl⟩)
  · rintro taken _ found
    obtain ⟨write, called, rfl⟩ := Option.map_eq_some_iff.mp found
    exact taken _ (Option.map_eq_some_iff.mpr ⟨write, called, rfl⟩)

private theorem Inv.exact_iff (inv : Inv s) :
    Exact s ↔ (s.byteRemain = 0 → ∀ first, firstAccepted s = some first → 6 ≤ first) := by
  constructor
  · intro exact' zero
    exact (inv.ended zero).2.mp (exact'.complete zero).2
  · intro taken
    refine ⟨by rw [totalSend_toInt]; exact inv.remain, inv.asks, fun zero => ?_⟩
    obtain ⟨length, opens⟩ := inv.ended zero
    exact ⟨by rw [length, totalSend_toInt]; rfl, opens.mpr (taken zero)⟩

/-- The end of the loop is final. -/
theorem ended_final (zero : s.byteRemain = 0) (ran : run step s events = some last) :
    last.byteRemain = 0 ∧ last.writes = s.writes := by
  refine run_invariant (P := fun mid => mid.byteRemain = 0 ∧ mid.writes = s.writes) ⟨zero, rfl⟩ ?_ ran
  rintro mid event next ⟨zero, same⟩ took
  cases event with
  | signal =>
    cases took
    exact ⟨zero, same⟩
  | write result =>
    rw [step, State.turn, if_neg (by simp [zero])] at took
    cases took

/-- Without a failing write the books are kept throughout. -/
theorem always_inv (fine : ∀ errno, .write (.error errno) ∉ events) :
    Always step Inv start events := by
  refine always_of_along start_inv (fun _ _ _ inv good took => inv.step good took) ?_
  intro before event part _ _ errno same
  exact fine errno (same ▸ part.subset (by simp))

/-- Calls are only added. -/
theorem writes_grow (ran : run step s events = some last) : s.writes <+: last.writes := by
  refine run_invariant (P := fun mid => s.writes <+: mid.writes) List.prefix_rfl ?_ ran
  intro mid event next grown took
  cases event with
  | signal =>
    cases took
    exact grown
  | write result =>
    rw [step, State.turn, Option.ite_none_right_eq_some] at took
    have same : mid.writeHeader.writes = mid.writes := by
      unfold State.writeHeader
      split <;> rfl
    cases took.2
    dsimp only
    rw [same]
    exact grown.trans (List.prefix_append _ _)

section Answers

variable {s last : State} {events : List Event}

/-- The socket has taken what its answers come to, up to the total. -/
theorem run_accepted (inv : Inv s) (fine : ∀ errno, .write (.error errno) ∉ events)
    (ran : run step s events = some last) :
    (accepted last).length =
      min 104857600 ((accepted s).length + (events.map Event.count).sum) := by
  induction events generalizing s with
  | nil =>
    cases ran
    exact (Nat.min_eq_right inv.within).symm
  | cons event rest ih =>
    obtain ⟨next, took, onward⟩ := run_cons.mp ran
    have after := inv.step (fun errno same => fine errno (same ▸ List.mem_cons_self)) took
    rw [ih after (fun errno failing => fine errno (List.mem_cons_of_mem _ failing)) onward,
      List.map_cons, List.sum_cons]
    cases event with
    | signal =>
      cases took
      simp only [Event.count, Nat.zero_add]
      rfl
    | write result =>
      cases result with
      | error errno => exact absurd List.mem_cons_self (fine errno)
      | accepted count =>
        obtain ⟨_, _, size, asked, _, _, _, _, writes⟩ := inv.turn took
        have remain := inv.remain
        have grown := accepted_length writes (by rw [WriteResult.count]; omega)
        rw [grown, WriteResult.count, Event.count]
        omega

/-- So the loop is at its end once they come to the total. -/
theorem ended_iff (fine : ∀ errno, .write (.error errno) ∉ events)
    (ran : run step start events = some last) :
    last.byteRemain = 0 ↔ totalSend.toInt ≤ (events.map Event.count).sum := by
  have inv := always_inv fine events List.prefix_rfl last ran
  have taken := run_accepted start_inv fine ran
  have nothing : (accepted start).length = 0 := rfl
  have remain := inv.remain
  rw [← Int32.toInt_inj, totalSend_toInt, show (0 : Int32).toInt = 0 from rfl]
  omega

private theorem find_accepted_none (nothing : accepted s = []) :
    s.writes.find? (fun write => write.accepted ≠ []) = none :=
  List.find?_eq_none.mpr fun write member => by
    simp [List.flatMap_eq_nil_iff.mp nothing write member]

private theorem firstAccepted_stays (found : firstAccepted s = some count)
    (ran : run step s events = some last) : firstAccepted last = some count := by
  obtain ⟨more, grown⟩ := writes_grow ran
  obtain ⟨first, called, length⟩ := Option.map_eq_some_iff.mp found
  rw [firstAccepted, ← grown, List.find?_append, called, Option.some_or, Option.map_some, length]

/-- As long as nothing is taken a turn offers a whole line. -/
theorem run_firstAccepted (inv : Inv s) (fine : ∀ errno, .write (.error errno) ∉ events)
    (nothing : accepted s = []) (ran : run step s events = some last) :
    firstAccepted last = (events.find? (0 < ·.count)).map Event.count := by
  induction events generalizing s with
  | nil =>
    cases ran
    rw [firstAccepted, find_accepted_none nothing]
    rfl
  | cons event rest ih =>
    obtain ⟨next, took, onward⟩ := run_cons.mp ran
    have after := inv.step (fun errno same => fine errno (same ▸ List.mem_cons_self)) took
    have later : ∀ errno, .write (.error errno) ∉ rest := fun errno failing =>
      fine errno (List.mem_cons_of_mem _ failing)
    cases event with
    | signal =>
      cases took
      exact ih after later nothing onward
    | write result =>
      cases result with
      | error errno => exact absurd List.mem_cons_self (fine errno)
      | accepted count =>
        obtain ⟨_, _, size, asked, _, _, _, _, writes⟩ := inv.turn took
        have remain := inv.remain
        rw [nothing, List.length_nil] at remain
        have taken : (WriteResult.accepted count).count size.toNat = min count 1400 := by
          rw [WriteResult.count]
          omega
        rw [taken] at writes
        have length : (filled.take (min count 1400)).length = min count 1400 :=
          List.length_take_of_le (by rw [filled_length]; exact Nat.min_le_right _ _)
        by_cases any : 0 < min count 1400
        · rw [List.find?_cons_of_pos (by simpa [Event.count] using any)]
          refine firstAccepted_stays ?_ onward
          have piece : filled.take (min count 1400) ≠ [] := List.ne_nil_of_length_pos (by omega)
          rw [firstAccepted, writes, List.find?_append, find_accepted_none nothing,
            Option.none_or, List.find?_cons_of_pos (by simpa only [decide_eq_true_eq] using piece)]
          exact congrArg some length
        · rw [List.find?_cons_of_neg (by simpa [Event.count] using any)]
          have empty : filled.take (min count 1400) = [] := List.length_eq_zero_iff.mp (by omega)
          have still : accepted next = [] := by rw [accepted_write writes, nothing, empty]; rfl
          exact ih after later still onward

private theorem headerTaken_iff (fine : ∀ errno, .write (.error errno) ∉ events)
    (ran : run step start events = some last) :
    (∀ first, firstAccepted last = some first → 6 ≤ first) ↔ HeaderTaken events := by
  rw [run_firstAccepted start_inv fine rfl ran, HeaderTaken]
  constructor
  · intro reaches first found
    exact reaches first.count (by rw [found]; rfl)
  · rintro taken _ found
    obtain ⟨first, earliest, rfl⟩ := Option.map_eq_some_iff.mp found
    exact taken first earliest

end Answers

/-- The loop sends what it announces in exactly the runs in which no write fails and, should it
come to its end, the first accepted write takes six bytes or more of the header. -/
theorem block_client_exact_iff (events : List Event) (last : State)
    (ran : run step start events = some last) :
    Always step Exact start events ↔
      (∀ errno, .write (.error errno) ∉ events) ∧
        (totalSend.toInt ≤ (events.map Event.count).sum → HeaderTaken events) := by
  have counts := always_iff_along (P := Counts) start_inv
    (fun _ inv => by rw [Counts, totalSend_toInt]; exact inv.remain)
    (fun _ _ _ inv fine took => inv.step fine took)
    (fun mid event next inv bad took => by
      simp only [NotFailing, not_forall, not_not] at bad
      obtain ⟨errno, rfl⟩ := bad
      exact inv.fails took) ran
  constructor
  · intro always
    have along := counts.mp fun before part mid reached => (always before part mid reached).remain
    have fine : ∀ errno, .write (.error errno) ∉ events := by
      intro errno failing
      obtain ⟨before, after, rfl⟩ := List.append_of_mem failing
      obtain ⟨mid, reached, _⟩ := run_append.mp ran
      exact along before (.write (.error errno)) ⟨after, by simp⟩ mid reached errno rfl
    have inv := always_inv fine events List.prefix_rfl last ran
    refine ⟨fine, fun ends => (headerTaken_iff fine ran).mp ?_⟩
    exact inv.exact_iff.mp (always events List.prefix_rfl last ran) ((ended_iff fine ran).mpr ends)
  · rintro ⟨fine, taken⟩ before ⟨after, rfl⟩ mid reached
    have inv := always_inv fine before (List.prefix_append _ _) mid reached
    refine inv.exact_iff.mpr fun zero => ?_
    obtain ⟨again, first, onward⟩ := run_append.mp ran
    cases reached.symm.trans first
    obtain ⟨ended, same⟩ := ended_final zero onward
    rw [firstAccepted, ← same]
    exact (headerTaken_iff fine ran).mpr (taken ((ended_iff fine ran).mp ended))

/-- A socket that takes whatever it is offered brings the loop to its end. -/
theorem loop_finishes (inv : Inv s) (running : s.running = true) :
    ∃ lines last, run step s (List.replicate lines (.write (.accepted 1400))) = some last ∧
      last.byteRemain = 0 := by
  generalize left : 104857600 - (accepted s).length = count
  induction count using Nat.strong_induction_on generalizing s with
  | _ count ih =>
    have remain := inv.remain
    have within := inv.within
    by_cases none : s.byteRemain = 0
    · exact ⟨0, s, rfl, none⟩
    · obtain ⟨next, took⟩ : ∃ next, s.turn (.accepted 1400) = some next :=
        ⟨_, if_pos ⟨running, none⟩⟩
      obtain ⟨_, positive, size, asked, goes, _, _, _, writes⟩ := inv.turn took
      have whole : (WriteResult.accepted 1400).count size.toNat = size.toNat :=
        Nat.min_eq_right (by omega)
      rw [whole] at writes
      have length := accepted_length writes (by omega)
      obtain ⟨lines, last, ran, ended⟩ := ih _ (by omega) (inv.write took) goes rfl
      exact ⟨lines + 1, last, run_cons.mpr ⟨next, took, ran⟩, ended⟩

/-- Full lines only: the announced bytes are sent, with the announcement in front. -/
theorem full_lines_exact :
    ∃ lines last, run step start (List.replicate lines (.write (.accepted 1400))) = some last ∧
      last.byteRemain = 0 ∧
      Always step Exact start (List.replicate lines (.write (.accepted 1400))) := by
  obtain ⟨lines, last, ran, ended⟩ := loop_finishes start_inv rfl
  refine ⟨lines, last, ran, ended, (block_client_exact_iff _ last ran).mpr ⟨?_, ?_⟩⟩
  · intro errno member
    have same := (List.mem_replicate.mp member).2
    cases same
  · rintro _ first found
    rw [List.eq_of_mem_replicate (List.mem_of_find?_eq_some found)]
    decide

/-- A failing write makes the loop count one byte too many, and a first write of three bytes
leaves the receiver without the announcement when all is sent. -/
theorem failing_or_split_writes :
    (∃ s, run step start [.write (.error 4)] = some s ∧
      s.byteRemain.toInt = 104857601 ∧ accepted s = [] ∧ ¬ Exact s) ∧
    ∃ lines last, run step start
        (.write (.accepted 3) :: List.replicate lines (.write (.accepted 1400))) = some last ∧
      last.byteRemain = 0 ∧ (accepted last).take 8 ≠ announced ∧ ¬ Exact last := by
  constructor
  · obtain ⟨s, took⟩ : ∃ s, start.turn (.error 4) = some s := ⟨_, if_pos ⟨rfl, by decide⟩⟩
    obtain ⟨_, _, size, _, _, remains, _, _, writes⟩ := start_inv.turn took
    refine ⟨s, run_cons.mpr ⟨s, took, rfl⟩, ?_, ?_, fun exact' =>
      start_inv.fails took exact'.remain⟩
    · rw [remains]
      change (totalSend - -1).toInt = 104857601
      decide
    · rw [accepted_write writes]
      rfl
  · obtain ⟨mid, took⟩ : ∃ mid, start.turn (.accepted 3) = some mid := ⟨_, if_pos ⟨rfl, by decide⟩⟩
    obtain ⟨_, _, _, _, goes, _⟩ := start_inv.turn took
    obtain ⟨lines, last, onward, ended⟩ := loop_finishes (start_inv.write took) goes
    have ran : run step start
        (.write (.accepted 3) :: List.replicate lines (.write (.accepted 1400))) = some last :=
      run_cons.mpr ⟨mid, took, onward⟩
    have fine : ∀ errno, Event.write (.error errno) ∉
        .write (.accepted 3) :: List.replicate lines (.write (.accepted 1400)) := by simp
    have inv := always_inv fine _ List.prefix_rfl last ran
    have short : ¬ ∀ first, firstAccepted last = some first → 6 ≤ first := by
      rw [headerTaken_iff fine ran]
      intro taken
      exact absurd (taken _ (List.find?_cons_of_pos (by decide))) (by decide)
    exact ⟨lines, last, ran, ended, fun opens => short ((inv.ended ended).2.mp opens),
      fun exact' => short (inv.exact_iff.mp exact' ended)⟩

end TcpCongestion.BlockClient
