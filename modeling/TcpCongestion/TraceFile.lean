import TcpCongestion.FieldText
import TcpCongestion.ReceiveTrace

/-! The trace file of `tcp/tcp_trace.cc`. A line is put together in an array of 256 characters
and has three numbers, of which the last two are padded to 16 columns. What was written can be
read from the file again, and for a server it is the records of all its connections. -/
namespace TcpCongestion.TraceFile
open FieldText Runs TcpPeerProofs TcpServerProofs

structure TraceRecord where
  clientId : UInt32
  ts : UInt32
  len : UInt32
  deriving DecidableEq, Repr

/-- What `sprintf` writes for an unsigned argument of `%d`. -/
def signed (x : UInt32) : Int := x.toInt32.toInt

/-- `"%d %16d %16d"`. -/
def TraceRecord.line (record : TraceRecord) : List Char :=
  decimal (signed record.clientId) ++ ' ' :: (padded 16 (decimal (signed record.ts)) ++
    ' ' :: padded 16 (decimal (signed record.len)))

/-- `log_` as whether it is open and the text of its file. -/
structure TcpTrace where
  isOpen : Bool
  log : List Char
  deriving DecidableEq, Repr

namespace TcpTrace

/-- `OpenTraceFile`; `std::fstream::out` empties the file, if it can be opened. -/
def openTraceFile (opens : Bool) : TcpTrace := { isOpen := opens, log := [] }

/-- `OnRecvData`. A line that leaves no room for its end would be written past the array. -/
def onRecvData (t : TcpTrace) (record : TraceRecord) : Option TcpTrace :=
  if t.isOpen then
    if record.line.length < 256 then some { t with log := t.log ++ (record.line ++ ['\n']) }
    else none
  else some t

def close (t : TcpTrace) : TcpTrace := { t with isOpen := false }

end TcpTrace

inductive TraceCall where
  | onRecvData (record : TraceRecord)
  | close
  deriving DecidableEq, Repr

def TcpTrace.step (t : TcpTrace) : TraceCall → Option TcpTrace
  | .onRecvData record => t.onRecvData record
  | .close => some t.close

/-! ## A line -/

/-- The number of 32 bits that `%d` shows as this one. -/
def unsigned (i : Int) : UInt32 := (Int32.ofInt i).toUInt32

/-- The record whose three numbers are the words of a line. -/
def readRecord (line : List Char) : Option TraceRecord :=
  match words line with
  | [clientId, ts, len] =>
    some ⟨unsigned (readDecimal clientId), unsigned (readDecimal ts), unsigned (readDecimal len)⟩
  | _ => none

private theorem unsigned_signed (x : UInt32) : unsigned (signed x) = x := by
  rw [unsigned, signed, Int32.ofInt_toInt, UInt32.toUInt32_toInt32]

private theorem words_decimal (i : Int) : words (decimal i) = [decimal i] :=
  words_word (decimal_ne_nil i) (not_mem_decimal i (by decide) (by decide))

private theorem readRecord_line (record : TraceRecord) : readRecord record.line = some record := by
  have split : words record.line = [decimal (signed record.clientId),
      decimal (signed record.ts), decimal (signed record.len)] := by
    rw [TraceRecord.line, words_append, words_append, words_padded, words_padded,
      words_decimal, words_decimal, words_decimal]
    rfl
  simp only [readRecord, split, readDecimal_decimal, unsigned_signed]

private theorem newline_not_mem_padded (i : Int) : '\n' ∉ padded 16 (decimal i) := by
  intro mem
  rcases List.mem_append.mp mem with blank | digit
  · cases List.eq_of_mem_replicate blank
  · exact not_mem_decimal i (by decide) (by decide) digit

private theorem newline_not_mem_line (record : TraceRecord) : '\n' ∉ record.line := by
  intro mem
  rcases List.mem_append.mp mem with first | mem
  · exact not_mem_decimal _ (by decide) (by decide) first
  rcases List.mem_cons.mp mem with blank | mem
  · cases blank
  rcases List.mem_append.mp mem with second | mem
  · exact newline_not_mem_padded _ second
  rcases List.mem_cons.mp mem with blank | third
  · cases blank
  · exact newline_not_mem_padded _ third

private theorem signed_length (x : UInt32) : (decimal (signed x)).length ≤ 11 := by
  have low : -2 ^ 31 ≤ signed x := Int32.le_toInt x.toInt32
  have high : signed x < 2 ^ 31 := Int32.toInt_lt x.toInt32
  exact decimal_length 10 (by decide) (by omega)

/-- The array is large enough for every line and its end. -/
theorem line_length (record : TraceRecord) : record.line.length < 256 := by
  have first := signed_length record.clientId
  have second := signed_length record.ts
  have third := signed_length record.len
  simp only [TraceRecord.line, List.length_append, List.length_cons, padded_length]
  omega

/-! ## The file -/

/-- The text of these records. -/
def written (records : List TraceRecord) : List Char :=
  records.flatMap fun record => record.line ++ ['\n']

private theorem lines_written (records : List TraceRecord) :
    lines (written records) = records.map TraceRecord.line := by
  have ended : ∀ line ∈ records.map TraceRecord.line, '\n' ∉ line := by
    intro line mem
    obtain ⟨record, -, rfl⟩ := List.mem_map.mp mem
    exact newline_not_mem_line record
  rw [← lines_flatten _ ended, List.flatMap_map]
  rfl

private theorem read_written (records : List TraceRecord) :
    (lines (written records)).map readRecord = records.map some := by
  rw [lines_written, List.map_map]
  exact List.map_congr_left fun record _ => readRecord_line record

private theorem onRecvData_open (records : List TraceRecord) (record : TraceRecord) :
    TcpTrace.onRecvData ⟨true, written records⟩ record =
      some ⟨true, written (records ++ [record])⟩ := by
  rw [TcpTrace.onRecvData, if_pos rfl, if_pos (line_length record), written, written,
    List.flatMap_append, List.flatMap_singleton]

/-- The records that come before the file is closed. -/
def heard : List TraceCall → List TraceRecord
  | [] => []
  | .onRecvData record :: rest => record :: heard rest
  | .close :: _ => []

private theorem closed_run (calls : List TraceCall) (log : List Char) :
    run TcpTrace.step ⟨false, log⟩ calls = some ⟨false, log⟩ := by
  induction calls with
  | nil => rfl
  | cons call rest ih =>
    refine run_cons.mpr ⟨⟨false, log⟩, ?_, ih⟩
    cases call <;> rfl

private theorem open_run (calls : List TraceCall) (records : List TraceRecord) :
    ∃ isOpen, run TcpTrace.step ⟨true, written records⟩ calls =
      some ⟨isOpen, written (records ++ heard calls)⟩ := by
  induction calls generalizing records with
  | nil =>
    rw [heard, List.append_nil]
    exact ⟨true, rfl⟩
  | cons call rest ih =>
    cases call with
    | onRecvData record =>
      obtain ⟨isOpen, ran⟩ := ih (records ++ [record])
      refine ⟨isOpen, run_cons.mpr ⟨_, onRecvData_open records record, ?_⟩⟩
      rw [ran, heard, List.append_assoc]
      rfl
    | close =>
      refine ⟨false, run_cons.mpr ⟨_, rfl, ?_⟩⟩
      rw [heard, List.append_nil]
      exact closed_run rest _

/-- No call writes past the array, and the lines of the file, each of them ended, are read back
as the records that came before the file was closed. -/
theorem trace_file_read_back (opens : Bool) (calls : List TraceCall) :
    ∃ t, run TcpTrace.step (TcpTrace.openTraceFile opens) calls = some t ∧
      (lines t.log).map readRecord = (if opens then heard calls else []).map some ∧
      (lines t.log).flatMap (· ++ ['\n']) = t.log := by
  have whole (records : List TraceRecord) :
      (lines (written records)).flatMap (· ++ ['\n']) = written records := by
    rw [lines_written, List.flatMap_map]
    rfl
  cases opens with
  | false => exact ⟨_, closed_run calls [], read_written [], whole []⟩
  | true =>
    obtain ⟨isOpen, ran⟩ := open_run calls []
    exact ⟨_, ran, read_written _, whole _⟩

/-! ## The file of a server -/

/-- The calls of `OnTraceData`. -/
def traced (effects : List PeerEffect) : List TraceRecord :=
  effects.filterMap fun
    | .onTraceData id ts len => some ⟨id, ts, len⟩
    | _ => none

/-- What peer `p` has called so far. -/
def effectsOf (s : TcpServer) (p : Nat) : List PeerEffect :=
  s.objects[p]?.elim [] (·.effects)

/-- The calls of `OnTraceData` of one step, each with its peer. -/
def reported (before after : TcpServer) : List (Nat × TraceRecord) :=
  (List.range after.objects.length).flatMap fun p =>
    (traced ((effectsOf after p).drop (effectsOf before p).length)).map (p, ·)

/-- A server with its `tracer_`. -/
structure TracingServer where
  server : TcpServer
  tracer : TcpTrace

def TracingServer.step (s : TracingServer) (event : ServerEvent) : Option TracingServer := do
  let server ← s.server.step event
  let tracer ← run TcpTrace.onRecvData s.tracer ((reported s.server server).map (·.2))
  some { server, tracer }

private theorem traced_append (before after : List PeerEffect) :
    traced (before ++ after) = traced before ++ traced after :=
  List.filterMap_append

private theorem effectsOf_found {s : TcpServer} (found : s.objects[p]? = some object) :
    effectsOf s p = object.effects := by
  rw [effectsOf, found]
  rfl

private theorem effectsOf_set {s next : TcpServer} (found : s.objects[p]? = some object)
    (objects : next.objects = s.objects.set p changed)
    (grows : object.effects <+: changed.effects) (q : Nat) :
    effectsOf s q <+: effectsOf next q := by
  by_cases same : q = p
  · subst same
    obtain ⟨inside, -⟩ := List.getElem?_eq_some_iff.mp found
    have after : next.objects[q]? = some changed := by
      rw [objects, List.getElem?_set_self inside]
    rw [effectsOf_found found, effectsOf_found after]
    exact grows
  · rw [effectsOf, effectsOf, objects, List.getElem?_set_ne (Ne.symm same)]

private theorem effectsOf_append {s next : TcpServer}
    (objects : next.objects = s.objects ++ [added])
    (q : Nat) : effectsOf s q <+: effectsOf next q := by
  by_cases inside : q < s.objects.length
  · rw [effectsOf, effectsOf, objects, List.getElem?_append_left inside]
  · rw [effectsOf, List.getElem?_eq_none (Nat.le_of_not_lt inside)]
    exact List.nil_prefix

/-- A peer takes nothing back of what it called. -/
theorem effects_grow (inv : ServerInv listenfd s) (took : s.step event = some next) (q : Nat) :
    effectsOf s q <+: effectsOf next q := by
  cases inv.moves took with
  | acceptNew => exact effectsOf_append rfl q
  | acceptStale => exact effectsOf_append rfl q
  | data found result turn =>
    obtain ⟨traces, signal, effects, -⟩ := turn.effects
    refine effectsOf_set found rfl ?_ q
    exact ⟨_, effects.symm⟩
  | fatal positive client polled registered found other final =>
    refine effectsOf_set found rfl ?_ q
    exact List.prefix_append _ _
  | timer =>
    refine (inv.deletes (P := fun mid => effectsOf s q <+: effectsOf mid q) List.prefix_rfl ?_
      s.waitForDelele fun _ member => member).2
    intro mid p object grown found idle
    have same : object.effects <+: (retired object).effects := List.prefix_rfl
    exact grown.trans (effectsOf_set found rfl same q)
  | acceptFailed | acceptBeyond | waits | failedCall => exact List.prefix_rfl

private theorem owner_part (p q : Nat) (records : List TraceRecord) :
    ((records.map (q, ·)).filter (·.1 = p)).map (·.2) = if q = p then records else [] := by
  by_cases same : q = p
  · simp [List.filter_map, Function.comp_def, same]
  · simp [List.filter_map, Function.comp_def, same]

private theorem owner_parts (count p : Nat) (records : Nat → List TraceRecord) :
    (((List.range count).flatMap fun q => (records q).map (q, ·)).filter (·.1 = p)).map (·.2) =
      if p < count then records p else [] := by
  induction count with
  | zero => rfl
  | succ count ih =>
    rw [List.range_succ, List.flatMap_append, List.filter_append, List.map_append,
      List.flatMap_singleton, ih, owner_part]
    by_cases same : count = p
    · subst same
      simp
    · have step : p < count + 1 ↔ p < count := by omega
      simp only [if_neg same, step, List.append_nil]

/-- Every record in the file is one of a peer, and each peer finds its own in order. -/
structure Holds (owned : List (Nat × TraceRecord)) (s : TracingServer) : Prop where
  file : s.tracer = ⟨true, written (owned.map (·.2))⟩
  known : ∀ entry ∈ owned, entry.1 < s.server.objects.length
  own : ∀ p, (owned.filter (·.1 = p)).map (·.2) = traced (effectsOf s.server p)

private theorem onRecvData_run (records more : List TraceRecord) :
    run TcpTrace.onRecvData ⟨true, written records⟩ more =
      some ⟨true, written (records ++ more)⟩ := by
  induction more generalizing records with
  | nil => rw [List.append_nil, run]
  | cons record rest ih =>
    refine run_cons.mpr ⟨_, onRecvData_open records record, ?_⟩
    rw [ih, List.append_assoc]
    rfl

private theorem reported_own (grows : ∀ q, effectsOf before q <+: effectsOf after q) (p : Nat) :
    traced (effectsOf before p) ++ ((reported before after).filter (·.1 = p)).map (·.2) =
      traced (effectsOf after p) := by
  obtain ⟨added, same⟩ := grows p
  rw [reported, owner_parts]
  by_cases inside : p < after.objects.length
  · rw [if_pos inside, ← traced_append, ← same, List.drop_left]
  · have absent : effectsOf after p = [] := by
      rw [effectsOf, List.getElem?_eq_none (Nat.le_of_not_lt inside)]
      rfl
    rw [absent] at same ⊢
    rw [(List.append_eq_nil_iff.mp same).1, if_neg inside]
    rfl

private theorem objects_grow (inv : ServerInv listenfd s) (took : s.step event = some next) :
    s.objects.length ≤ next.objects.length := by
  cases inv.moves took with
  | acceptNew | acceptStale => simp
  | data | fatal => simp [afterFatal]
  | timer =>
    refine (inv.deletes (P := fun mid => s.objects.length ≤ mid.objects.length)
      (Nat.le_refl _) ?_ s.waitForDelele fun _ member => member).2
    intro mid p object longer found idle
    simpa using longer
  | acceptFailed | acceptBeyond | waits | failedCall => exact Nat.le_refl _

/-- The tracer holds up no step of the server. -/
theorem Holds.step (held : Holds owned ⟨s, tracer⟩) (inv : ServerInv listenfd s)
    (took : s.step event = some next) :
    ∃ tracer', TracingServer.step ⟨s, tracer⟩ event = some ⟨next, tracer'⟩ ∧
      Holds (owned ++ reported s next) ⟨next, tracer'⟩ := by
  have file := held.file
  refine ⟨⟨true, written ((owned ++ reported s next).map (·.2))⟩, ?_, ?_⟩
  · rw [TracingServer.step, took]
    simp only [Option.bind_eq_bind, Option.bind_some]
    rw [show tracer = _ from file, onRecvData_run, List.map_append]
    rfl
  · refine ⟨rfl, ?_, ?_⟩
    · intro entry mem
      rcases List.mem_append.mp mem with old | new
      · exact Nat.lt_of_lt_of_le (held.known entry old) (objects_grow inv took)
      · obtain ⟨p, inside, mem⟩ := List.mem_flatMap.mp new
        obtain ⟨record, -, rfl⟩ := List.mem_map.mp mem
        exact List.mem_range.mp inside
    · intro p
      rw [List.filter_append, List.map_append, held.own p]
      exact reported_own (effects_grow inv took) p

private theorem Holds.run (held : Holds owned ⟨s, tracer⟩) (inv : ServerInv listenfd s)
    (ran : run TcpServer.step s events = some last) :
    ∃ tracer' owned', Runs.run TracingServer.step ⟨s, tracer⟩ events = some ⟨last, tracer'⟩ ∧
      Holds owned' ⟨last, tracer'⟩ := by
  induction events generalizing s tracer owned with
  | nil =>
    cases ran
    exact ⟨tracer, owned, rfl, held⟩
  | cons event rest ih =>
    obtain ⟨next, took, onward⟩ := run_cons.mp ran
    obtain ⟨mid, stepped, holds⟩ := held.step inv took
    obtain ⟨tracer', owned', followed, ends⟩ := ih holds (inv.step took) onward
    exact ⟨tracer', owned', run_cons.mpr ⟨⟨next, mid⟩, stepped, followed⟩, ends⟩

/-- The file of a server that could open it. Its lines, read back, are the records of the
connections, each of them in the order in which it was reported and of nothing else, however the
connections take turns. -/
theorem trace_file_holds_connections (listenfd epfd : Int) (counter : Option PeerCouner)
    (events : List ServerEvent)
    (ran : run TcpServer.step (TcpServer.createSocket listenfd epfd counter) events =
      some server) :
    ∃ tracer, ∃ owned : List (Nat × TraceRecord),
      run TracingServer.step
        ⟨TcpServer.createSocket listenfd epfd counter, TcpTrace.openTraceFile true⟩ events =
          some ⟨server, tracer⟩ ∧
      (lines tracer.log).map readRecord = owned.map (some ·.2) ∧
      (∀ entry ∈ owned, entry.1 < server.objects.length) ∧
      ∀ p object, server.objects[p]? = some object →
        (owned.filter (·.1 = p)).map (·.2) = traced object.effects := by
  have start : Holds [] ⟨TcpServer.createSocket listenfd epfd counter,
      TcpTrace.openTraceFile true⟩ := by
    refine ⟨rfl, ?_, ?_⟩
    · intro entry mem
      exact (List.not_mem_nil mem).elim
    · intro p
      rfl
  obtain ⟨tracer, owned, followed, ends⟩ := start.run (createSocket_inv listenfd epfd counter) ran
  refine ⟨tracer, owned, followed, ?_, ends.known, ?_⟩
  · rw [show tracer = _ from ends.file, read_written, List.map_map]
    rfl
  · intro p object found
    rw [← effectsOf_found found]
    exact ends.own p

/-- Two connections of eight bytes each, the second of them complete before the first has
reported. -/
def twoConnections : List ServerEvent :=
  [.accept (.ok 5), .accept (.ok 6),
   .readable 6 10 ⟨.data (.next 0 [0, 0, 1, 0, 0, 0, 8]), 0, 0, .accepted 14⟩,
   .readable 5 20 ⟨.data (.next 0 [0, 0, 1, 0, 0, 0, 8]), 0, 0, .accepted 14⟩]

theorem twoConnections_traced :
    ∃ server tracer, ∃ owned : List (Nat × TraceRecord),
      run TcpServer.step (TcpServer.createSocket 3 4 none) twoConnections = some server ∧
      run TracingServer.step ⟨TcpServer.createSocket 3 4 none, TcpTrace.openTraceFile true⟩
        twoConnections = some ⟨server, tracer⟩ ∧
      (lines tracer.log).map readRecord = owned.map (some ·.2) ∧
      (∀ entry ∈ owned, entry.1 < server.objects.length) ∧
      (∀ p object, server.objects[p]? = some object →
        (owned.filter (·.1 = p)).map (·.2) = traced object.effects) ∧
      (lines tracer.log).length = 4 := by
  have runs : (run TcpServer.step (TcpServer.createSocket 3 4 none) twoConnections).isSome =
      true := by
    decide +kernel
  have four : (run TracingServer.step ⟨TcpServer.createSocket 3 4 none,
      TcpTrace.openTraceFile true⟩ twoConnections).any
        (fun s => decide ((lines s.tracer.log).length = 4)) = true := by
    decide +kernel
  obtain ⟨server, ran⟩ := Option.isSome_iff_exists.mp runs
  obtain ⟨tracer, owned, followed, file, known, own⟩ :=
    trace_file_holds_connections 3 4 none twoConnections ran
  refine ⟨server, tracer, owned, ran, followed, file, known, own, ?_⟩
  rw [followed] at four
  exact of_decide_eq_true four

end TcpCongestion.TraceFile
