import TcpCongestion.RedisMain
import TcpCongestion.TcpPeerProofs

/-! What one `ReadFromClient` does, in terms of the variables alone: `consume` says which reads
it takes in, what there is to see of that and whether the transfer was found complete.
Neither `errno` nor the other descriptors have a part in it. -/
namespace TcpCongestion.Redis
open Posix TcpPeerProofs

/-- A `read` that returned data, what the locals happen to hold then, and the answer to the done
message should this read be the one that sends it. -/
structure Read where
  chunk : Chunk kBufferLen
  first : UInt32
  second : UInt32
  write : WriteResult

def Read.input (read : Read) : Input :=
  ⟨.data read.chunk, read.first, read.second, read.write⟩

/-- One `ReadFromClient`: the wall clock, the data it could read, and how the last `read` ends
it, `none` for a count of zero. -/
structure Callback where
  now : Int64
  reads : List Read
  stop : Option Errno

def lastInput (stop : Option Errno) : Input := ⟨stop.elim .eof .error, 0, 0, .accepted 0⟩

def Callback.inputs (callback : Callback) : List Input :=
  callback.reads.map Read.input ++ [lastInput callback.stop]

/-! ## The variables -/

namespace Globals

/-- The variables after the header branch. -/
def opening (g : Globals) (now : Int64) (bytes : List UInt8) (input : Input) : Globals :=
  if g.firstPacket then
    { g with
      clientId := ((header bytes).1.getD input.first).toInt32
      bytesTotal := ((header bytes).2.getD input.second).toInt32
      nextLogTime := (now + kLogInterval).toInt32
      firstPacket := false }
  else g

/-- The variables after a `read` that returned data. -/
def advance (g : Globals) (now : Int64) (bytes : List UInt8) (input : Input) : Globals :=
  let g := g.opening now bytes input
  let g := { g with bytesRead := g.bytesRead + Int32.ofNat bytes.length }
  if now > g.nextLogTime.toInt64 then
    { g with nextLogTime := (now + kLogInterval).toInt32 }
  else g

/-- The trace records a `read` that returned data leaves: one with the header, and one when it
is time for it. -/
def records (g : Globals) (now : Int64) (bytes : List UInt8) (input : Input) : List Effect :=
  let opened := g.opening now bytes input
  (if g.firstPacket then [.onRecvData opened.clientId now g.bytesRead] else []) ++
    if now > opened.nextLogTime.toInt64 then
      [.onRecvData opened.clientId now (opened.bytesRead + Int32.ofNat bytes.length)]
    else []

/-- The comparison that ends a transfer. -/
def completes (g : Globals) : Bool := g.bytesRead ≥ g.bytesTotal

theorem advance_firstPacket (g : Globals) : (advance g now bytes input).firstPacket = false := by
  simp only [advance, opening]
  split_ifs with first log log <;> simp_all

theorem advance_bytesTotal (g : Globals) : (advance g now bytes input).bytesTotal =
    if g.firstPacket then ((header bytes).2.getD input.second).toInt32 else g.bytesTotal := by
  simp only [advance, opening]
  split_ifs <;> rfl

theorem advance_bytesRead (g : Globals) :
    (advance g now bytes input).bytesRead = g.bytesRead + Int32.ofNat bytes.length := by
  simp only [advance, opening]
  split_ifs <;> rfl

end Globals

/-! ## What there is to see of a connection -/

/-- What is taken from the connection, what is sent on it and what the trace says of it. -/
def Effect.visible : Effect → Bool
  | .read _ _ => true
  | .onRecvData _ _ _ => true
  | .sendReadDone _ => true
  | .write _ _ => true
  | _ => false

/-- The visible calls of the completion branch. -/
def doneCalls (fd : Int) (result : WriteResult) : List Effect :=
  [.sendReadDone fd, .write fd ((doneMsg ++ List.replicate (kBufferLen - doneMsg.length) 0).take
    (result.count (doneMsg.length + 1)))]

theorem Globals.mem_records (member : effect ∈ Globals.records g now bytes input) :
    ∃ id count, effect = .onRecvData id now count := by
  obtain first | later := List.mem_append.mp member
  · split at first
    · exact ⟨_, _, List.mem_singleton.mp first⟩
    · cases first
  · split at later
    · exact ⟨_, _, List.mem_singleton.mp later⟩
    · cases later

private theorem Globals.filter_records (g : Globals) (now : Int64) (bytes : List UInt8)
    (input : Input) :
    (g.records now bytes input).filter Effect.visible = g.records now bytes input := by
  apply List.filter_eq_self.mpr
  intro effect member
  obtain ⟨id, count, rfl⟩ := mem_records member
  rfl

namespace State

def seen (s : State) : List Effect := s.effects.filter Effect.visible

private theorem readHeader_spec (s : State) (now : Int64) (bytes : List UInt8) (input : Input) :
    (s.readHeader now bytes input).globals = s.globals.opening now bytes input ∧
      (s.readHeader now bytes input).effects = s.effects ++
        (if s.globals.firstPacket then
          [.onRecvData (s.globals.opening now bytes input).clientId now s.globals.bytesRead]
        else []) ∧
      (s.readHeader now bytes input).opened = s.opened ∧
      (s.readHeader now bytes input).errno = s.errno := by
  unfold readHeader Globals.opening
  split
  · exact ⟨rfl, rfl, rfl, rfl⟩
  · exact ⟨rfl, (List.append_nil _).symm, rfl, rfl⟩

private theorem logInterval_spec (s : State) (now : Int64) :
    (s.logInterval now).globals = (if now > s.globals.nextLogTime.toInt64 then
        { s.globals with nextLogTime := (now + kLogInterval).toInt32 } else s.globals) ∧
      (s.logInterval now).effects = s.effects ++ (if now > s.globals.nextLogTime.toInt64 then
        [.onRecvData s.globals.clientId now s.globals.bytesRead] else []) ∧
      (s.logInterval now).opened = s.opened ∧ (s.logInterval now).errno = s.errno := by
  unfold logInterval
  split
  · exact ⟨rfl, rfl, rfl, rfl⟩
  · exact ⟨rfl, (List.append_nil _).symm, rfl, rfl⟩

theorem clientClose_effects (s : State) (fd err : Int) : (s.clientClose fd err).effects =
    s.effects ++ [.clientClose fd err, .deleteFileEvent fd, .close fd] := by
  simp [clientClose, emit]

private theorem clientClose_spec (s : State) (fd err : Int) :
    (s.clientClose fd err).globals = s.globals ∧ (s.clientClose fd err).seen = s.seen ∧
      (s.clientClose fd err).opened = s.opened.filter (· ≠ fd) := by
  refine ⟨rfl, ?_, rfl⟩
  rw [seen, clientClose_effects, List.filter_append]
  exact List.append_nil _

/-- A turn that got data, field by field. -/
structure DataTurn (s : State) (fd : Int) (now : Int64) (bytes : List UInt8) (input : Input)
    (next : State) : Prop where
  globals : next.globals = s.globals.advance now bytes input
  effects : next.effects = s.effects ++ .read fd bytes :: (s.globals.records now bytes input ++
    if next.globals.completes then doneCalls fd input.write ++
      [.clientClose fd bytes.length, .deleteFileEvent fd, .close fd] else [])
  opened : next.opened =
    if next.globals.completes then s.opened.filter (· ≠ fd) else s.opened
  errno : next.globals.completes = false → next.errno = s.errno

theorem onData_turn (s : State) (fd : Int) (now : Int64) (bytes : List UInt8) (input : Input) :
    DataTurn s fd now bytes input (s.onData fd now bytes input) := by
  let noted := (s.emit (.read fd bytes)).readHeader now bytes input
  let logged := (noted.countBytes bytes).logInterval now
  obtain ⟨headed, shown, kept, same⟩ := readHeader_spec (s.emit (.read fd bytes)) now bytes input
  obtain ⟨timed, recorded, still, unmoved⟩ := logInterval_spec (noted.countBytes bytes) now
  have globals : logged.globals = s.globals.advance now bytes input := by
    rw [timed, countBytes, headed]
    rfl
  have effects : logged.effects =
      s.effects ++ .read fd bytes :: s.globals.records now bytes input := by
    have counted : (noted.countBytes bytes).effects = noted.effects := rfl
    rw [recorded, counted, shown, emit, countBytes, headed, List.append_assoc, List.append_assoc]
    rfl
  have opened : logged.opened = s.opened := still.trans kept
  have errno : logged.errno = s.errno := unmoved.trans same
  have result : s.onData fd now bytes input =
    logged.checkDone fd bytes.length input.write := rfl
  rw [result, checkDone]
  by_cases complete : logged.globals.bytesRead ≥ logged.globals.bytesTotal
  · rw [if_pos complete]
    obtain ⟨closing, -, dropped⟩ :=
      clientClose_spec (logged.sendReadDone fd input.write) fd bytes.length
    have done : (logged.sendReadDone fd input.write).globals = logged.globals := rfl
    have completes : logged.globals.completes = true := decide_eq_true complete
    have told : (logged.sendReadDone fd input.write).effects =
        logged.effects ++ doneCalls fd input.write := by
      simp [sendReadDone, emit, doneCalls]
    constructor
    · rw [closing, done, globals]
    · rw [clientClose_effects, closing, done, completes, if_pos rfl, told, effects]
      simp
    · rw [dropped, closing, done, completes, if_pos rfl, ← opened]
      rfl
    · rw [closing, done, completes]
      intro impossible
      cases impossible
  · rw [if_neg complete]
    have completes : logged.globals.completes = false := decide_eq_false complete
    constructor
    · exact globals
    · rw [completes, effects]
      simp
    · rw [completes]
      exact opened
    · exact fun _ => errno

private theorem DataTurn.seen (turn : DataTurn s fd now bytes input next) :
    next.seen = s.seen ++ .read fd bytes :: (s.globals.records now bytes input ++
      if next.globals.completes then doneCalls fd input.write else []) := by
  have records := Globals.filter_records s.globals now bytes input
  rw [State.seen, turn.effects, List.filter_append, List.filter_cons_of_pos rfl,
    List.filter_append, records]
  split <;> rfl

end State

/-! ## A whole callback -/

/-- What a callback makes of the data it could read: the variables it leaves, what there is to
see of it, and whether it found the transfer incomplete to the end. After a completion the rest
of the data is not read. -/
def consume (fd : Int) (now : Int64) : Globals → List Read → Globals × List Effect × Bool
  | g, [] => (g, [], true)
  | g, read :: rest =>
    let shown := .read fd read.chunk.bytes :: g.records now read.chunk.bytes read.input
    let g := g.advance now read.chunk.bytes read.input
    if g.completes then (g, shown ++ doneCalls fd read.write, false)
    else
      let (g, seen, incomplete) := consume fd now g rest
      (g, shown ++ seen, incomplete)

/-- `BytesRead` as each of the reads leaves it. -/
def Globals.counts (now : Int64) : Globals → List Read → List Int32
  | _, [] => []
  | g, read :: rest =>
    let g := g.advance now read.chunk.bytes read.input
    g.bytesRead :: if g.completes then [] else counts now g rest

/-- Whether the last `read` of a callback leaves the descriptor open. -/
def staysOpen (errno : Errno) (stop : Option Errno) : Bool := wouldBlock (stop.getD errno)

namespace State

theorem turn_data (s : State) (isOpen : fd ∈ s.opened) (read : Read) :
    s.turn fd now read.input = (s.onData fd now read.chunk.bytes read.input, true) := by
  rw [turn, if_pos isOpen]
  rfl

/-- The last turn of a callback, on a descriptor that is still open. -/
theorem turn_last (s : State) (isOpen : fd ∈ s.opened) (now : Int64) (stop : Option Errno) :
    ∃ next, s.turn fd now (lastInput stop) = (next, false) ∧ next.globals = s.globals ∧
      next.seen = s.seen ∧
      next.opened = if staysOpen s.errno stop then s.opened else s.opened.filter (· ≠ fd) := by
  rw [turn, if_pos isOpen]
  cases stop with
  | none =>
    refine ⟨s.onReadEnd fd 0, rfl, ?_⟩
    rw [onReadEnd, staysOpen, Option.getD_none]
    split
    · exact ⟨rfl, rfl, rfl⟩
    · exact clientClose_spec s fd 0
  | some errno =>
    refine ⟨{ s with errno }.onReadEnd fd (-1), rfl, ?_⟩
    rw [onReadEnd, staysOpen, Option.getD_some]
    split
    · exact ⟨rfl, rfl, rfl⟩
    · exact clientClose_spec { s with errno } fd (-1)

/-- `BytesRead` after each turn of `ReadFromClient` that got data. -/
def counts (fd : Int) (now : Int64) : State → List Input → List Int32
  | _, [] => []
  | s, input :: rest =>
    match s.turn fd now input with
    | (_, false) => []
    | (next, true) => next.globals.bytesRead :: counts fd now next rest

/-- A turn on a descriptor the loop has closed itself. -/
theorem turn_closed (s : State) (closed : fd ∉ s.opened) (now : Int64) (input : Input) :
    ∃ next, s.turn fd now input = (next, false) ∧ next.globals = s.globals ∧
      next.seen = s.seen ∧ next.opened = s.opened := by
  have dropped : s.opened.filter (· ≠ fd) = s.opened :=
    List.filter_eq_self.mpr fun other member => decide_eq_true fun same => closed (same ▸ member)
  obtain ⟨globals, seen, opened⟩ := clientClose_spec { s with errno := EBADF } fd (-1)
  refine ⟨{ s with errno := EBADF }.clientClose fd (-1), ?_, globals, seen, opened.trans dropped⟩
  rw [turn, if_neg closed]
  rfl

/-- The rest of a callback that has closed its descriptor. -/
theorem readFromClient_closed (s : State) (closed : fd ∉ s.opened) (now : Int64)
    (inputs : List Input) :
    (readFromClient fd now s inputs).globals = s.globals ∧
      (readFromClient fd now s inputs).seen = s.seen ∧
      (readFromClient fd now s inputs).opened = s.opened ∧ counts fd now s inputs = [] := by
  cases inputs with
  | nil => exact ⟨rfl, rfl, rfl, rfl⟩
  | cons input rest =>
    obtain ⟨next, ends, globals, seen, opened⟩ := s.turn_closed closed now input
    rw [readFromClient, counts, ends]
    exact ⟨globals, seen, opened, rfl⟩

theorem readFromClient_spec (s : State) (isOpen : fd ∈ s.opened) (callback : Callback) :
    let (g, seen, incomplete) := consume fd callback.now s.globals callback.reads
    let after := readFromClient fd callback.now s callback.inputs
    after.globals = g ∧ after.seen = s.seen ++ seen ∧
      (after.opened = if incomplete && staysOpen s.errno callback.stop then s.opened
        else s.opened.filter (· ≠ fd)) ∧
      counts fd callback.now s callback.inputs = s.globals.counts callback.now callback.reads := by
  obtain ⟨now, reads, stop⟩ := callback
  simp only [Callback.inputs]
  induction reads generalizing s with
  | nil =>
    obtain ⟨next, ends, globals, seen, opened⟩ := s.turn_last isOpen now stop
    simp [readFromClient, counts, ends, consume, Globals.counts, globals, seen, opened]
  | cons read rest ih =>
    have turn := s.onData_turn fd now read.chunk.bytes read.input
    rw [List.map_cons, List.cons_append, readFromClient, counts, turn_data s isOpen, consume,
      Globals.counts]
    dsimp only
    rw [← turn.globals]
    generalize s.onData fd now read.chunk.bytes read.input = next at turn ⊢
    by_cases complete : next.globals.completes = true
    · have opened := turn.opened
      have seen := turn.seen
      rw [if_pos complete] at opened seen
      have closed : fd ∉ next.opened := by simp [opened]
      obtain ⟨globals, quiet, still, uncounted⟩ :=
        next.readFromClient_closed closed now (rest.map Read.input ++ [lastInput stop])
      rw [if_pos complete, if_pos complete, uncounted]
      exact ⟨globals, quiet.trans seen, still.trans opened, rfl⟩
    · have opened := turn.opened
      have seen := turn.seen
      rw [if_neg complete] at opened seen
      have errno := turn.errno (Bool.eq_false_iff.mpr complete)
      obtain ⟨globals, grown, closing, counted⟩ := ih next (opened ▸ isOpen)
      rw [if_neg complete, if_neg complete, counted]
      refine ⟨globals, ?_, ?_, rfl⟩
      · rw [grown, seen, List.append_nil, List.append_assoc]
      · rw [closing, opened, errno]

end State

end TcpCongestion.Redis
