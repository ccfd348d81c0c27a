import TcpCongestion.SenderStream
import TcpCongestion.TcpClientProofs

/-! Which descriptors a client touches. The calls it makes are entered in a ledger of what it has
opened, closed and registered. The kernel never answers `socket` with a descriptor that is
open, so one that is not in the ledger is somebody else's. -/
namespace TcpCongestion.ClientDescriptors
open Posix Runs TcpClientProofs SenderStream

/-- `owned` is opened and not yet closed, `closed` is closed and not opened since, `registered`
has `AE_READABLE` in the table with this client as `clientData`. `fault` says that a call was made
on a descriptor that was not owned. -/
structure Ledger where
  owned : List Int := []
  closed : List Int := []
  registered : List Int := []
  fault : Bool := false
  deriving DecidableEq

namespace Ledger

/-- A call on `fd`. -/
def touch (l : Ledger) (fd : Int) : Ledger :=
  if fd ∈ l.owned then l else { l with fault := true }

def shut (l : Ledger) (fd : Int) : Ledger :=
  { l with owned := l.owned.filter (· ≠ fd), closed := fd :: l.closed }

def note (l : Ledger) : ClientEffect → Ledger
  | .socket fd => { l with owned := fd :: l.owned, closed := l.closed.filter (· ≠ fd) }
  | .createFileEvent fd true => { l with registered := fd :: l.registered }
  | .deleteFileEvent fd => { l with registered := l.registered.filter (· ≠ fd) }
  | .read fd _ => l.touch fd
  | .write fd _ _ => l.touch fd
  | .getsockopt fd => l.touch fd
  | .close fd => (l.touch fd).shut fd
  | _ => l

def noteAll (l : Ledger) (effects : List ClientEffect) : Ledger := effects.foldl note l

/-- Every call was on a descriptor the client owned, so none was closed twice, and none that it
has closed is registered for it. -/
def Sound (l : Ledger) : Prop := l.fault = false ∧ ∀ fd ∈ l.closed, fd ∉ l.registered

end Ledger

def ledger (s : ClientState) : Ledger := Ledger.noteAll {} s.effects

/-- A method of the client, with what the environment answers. The read loop is entered turn by
turn, and the destructor is `Close`. Any other call of the thread that fails sets `errno`. -/
inductive Method where
  | bind (answer : Except Errno Int) (parses : Bool) (bound algo : Option Errno)
  | asynConnect
  | synConnect (answer : Except Errno Unit)
  | notifiConnect (created : Bool) (info : Option Errno)
  | nextWriteTime (script : List WriteResult) (nextTimems : Int)
  | notifiRead (input : ClientInput)
  | logTcpInfoEvent (info : Option Errno)
  | close (info : Option Errno)
  | destructor (info : Option Errno)
  | failedCall (errno : Errno)

/-- `socket` returns a descriptor that is not open. -/
def possible (s : ClientState) : Method → Bool
  | .bind (.ok fd) _ _ _ => decide (0 ≤ fd ∧ fd ∉ (ledger s).owned)
  | _ => true

def call (s : ClientState) : Method → Option ClientState
  | .bind answer parses bound algo => some (s.bind answer parses bound algo)
  | .asynConnect => some s.asynConnect
  | .synConnect answer => some (s.synConnect answer)
  | .notifiConnect created info => some (s.notifiConnect created info)
  | .nextWriteTime script nextTimems => (s.nextWriteTime script nextTimems).map (·.1)
  | .notifiRead input => some (s.turn input).1
  | .logTcpInfoEvent info => some (s.logTcpInfoEvent info)
  | .close info => some (s.close info)
  | .destructor info => some (s.close info)
  | .failedCall errno => some { s with errno }

def step (s : ClientState) (method : Method) : Option ClientState :=
  if possible s method then call s method else none

/-- A client that has been told what to send and nothing else. -/
def constructed (cid length : UInt32) (errno : Errno) : ClientState where
  client := TcpClient.setSenderInfo {} cid length
  errno := errno
  effects := []

/-- The loop's last `read` was not told to wait. -/
def Fatal (s : ClientState) (input : ClientInput) : Prop :=
  (∀ chunk, input.result ≠ .data chunk) ∧ wouldBlock (input.result.errnoAfter s.errno) = false

/-- The socket the methods would use, if there is one, is still the client's. -/
def Held (s : ClientState) : Prop := 0 ≤ s.client.sockfd → s.client.sockfd ∈ (ledger s).owned

/-- The socket `Close` would close is not registered. -/
def Unregistered (s : ClientState) : Prop :=
  0 < s.client.sockfd → s.client.sockfd ∉ (ledger s).registered

/-- The calls that leave the ledger sound: registering succeeds and is not followed by a close,
and nothing that looks at the socket comes after one. -/
def Careful (s : ClientState) : Method → Prop
  | .notifiConnect created _ => (s.client.connected = true → created = true) ∧ Held s
  | .logTcpInfoEvent _ => Held s
  | .notifiRead input =>
    s.client.sockfd ∈ (ledger s).owned ∧ (Fatal s input → Unregistered s)
  | .close _ => Unregistered s
  | .destructor _ => Unregistered s
  | _ => True

/-! ## Entries -/

namespace Ledger

variable {l : Ledger} {fd : Int}

private theorem noteAll_append (l : Ledger) (before after : List ClientEffect) :
    l.noteAll (before ++ after) = (l.noteAll before).noteAll after := List.foldl_append

private theorem touch_owned (own : fd ∈ l.owned) : l.touch fd = l := if_pos own

private theorem touch_stranger (stranger : fd ∉ l.owned) : (l.touch fd).fault = true := by
  rw [touch, if_neg stranger]

/-- A fault is never forgotten. -/
theorem note_fault (effect : ClientEffect) (bad : l.fault = true) :
    (l.note effect).fault = true := by
  have touched : ∀ fd, (l.touch fd).fault = true := by
    intro fd
    rw [touch]
    split
    · exact bad
    · rfl
  unfold note
  split <;> first | exact bad | exact touched _

private theorem noteAll_fault (effects : List ClientEffect) (bad : l.fault = true) :
    (l.noteAll effects).fault = true := by
  induction effects generalizing l with
  | nil => exact bad
  | cons effect rest ih => exact ih (note_fault effect bad)

private theorem noteAll_info (held : 0 ≤ fd → fd ∈ l.owned) : l.noteAll (infoCalls fd) = l := by
  rw [infoCalls]
  split
  · rfl
  · exact touch_owned (held (by omega))

private theorem noteAll_info_stranger (stands : 0 ≤ fd) (stranger : fd ∉ l.owned) :
    (l.noteAll (infoCalls fd)).fault = true := by
  rw [infoCalls, if_neg (by omega)]
  exact touch_stranger stranger

private theorem noteAll_log (client : TcpClient) :
    l.noteAll (logCalls client) = l.noteAll (infoCalls client.sockfd) := by
  rw [logCalls, noteAll_append]
  split <;> rfl

private theorem noteAll_deactive (client : TcpClient)
    (held : 0 ≤ client.sockfd → client.sockfd ∈ l.owned) :
    l.noteAll (deactiveCalls client) = l := by
  rw [deactiveCalls]
  split
  · rfl
  · rw [noteAll_append]
    split <;> exact noteAll_info held

private theorem noteAll_close (client : TcpClient) (plain : client.readEventRegisted = false)
    (isOpen : 0 < client.sockfd → client.sockfd ∈ l.owned) :
    l.noteAll (closeCalls client) = if 0 < client.sockfd then l.shut client.sockfd else l := by
  rw [closeCalls, deleteCalls, plain]
  by_cases positive : 0 < client.sockfd
  · rw [if_pos positive, if_pos positive, if_neg Bool.false_ne_true]
    simp [noteAll, note, touch_owned (isOpen positive)]
  · rw [if_neg positive, if_neg positive]
    rfl

private theorem noteAll_writes (own : fd ∈ l.owned) (writes : ∀ effect ∈ effects, Asks fd effect) :
    l.noteAll effects = l := by
  induction effects with
  | nil => rfl
  | cons effect rest ih =>
    obtain ⟨msg, count, rfl, _⟩ := writes effect List.mem_cons_self
    have first : l.note (.write fd msg count) = l := touch_owned own
    rw [noteAll, List.foldl_cons, first]
    exact ih fun other member => writes other (List.mem_cons_of_mem _ member)

end Ledger

private theorem ledger_append (grown : next.effects = s.effects ++ calls) :
    ledger next = (ledger s).noteAll calls := by
  rw [ledger, grown, Ledger.noteAll_append]
  rfl

/-- The socket in hand is the client's, and so is everything registered. `readEventRegisted_` is
never set. -/
structure Inv (client : TcpClient) (l : Ledger) : Prop where
  plain : client.readEventRegisted = false
  isOpen : 0 < client.sockfd → client.sockfd ∈ l.owned
  owned : ∀ fd ∈ l.owned, 0 ≤ fd
  closed : ∀ fd ∈ l.closed, 0 ≤ fd ∧ fd ∉ l.owned
  registered : ∀ fd ∈ l.registered, 0 ≤ fd → fd ∈ l.owned
  fault : l.fault = false

private theorem Inv.sound (inv : Inv client l) : l.Sound := by
  refine ⟨inv.fault, fun fd closed registered => ?_⟩
  obtain ⟨stands, gone⟩ := inv.closed fd closed
  exact gone (inv.registered fd registered stands)

/-- A client whose ledger is in order. -/
abbrev Owns (s : ClientState) : Prop := Inv s.client (ledger s)

private theorem constructed_inv (cid length : UInt32) (errno : Errno) :
    Owns (constructed cid length errno) := by
  constructor <;> simp [constructed, TcpClient.setSenderInfo, ledger, Ledger.noteAll]

/-- Only two fields of the client matter. -/
theorem Inv.frame (inv : Inv client l) (plain : other.readEventRegisted = client.readEventRegisted)
    (sockfd : other.sockfd = client.sockfd) : Inv other l where
  plain := plain.trans inv.plain
  isOpen := by
    rw [sockfd]
    exact inv.isOpen
  owned := inv.owned
  closed := inv.closed
  registered := inv.registered
  fault := inv.fault

private theorem Inv.opened (inv : Inv client l) (stands : 0 ≤ fd)
    (plain : other.readEventRegisted = false)
    (sockfd : other.sockfd = fd) : Inv other (l.note (.socket fd)) where
  plain := plain
  isOpen _ := by
    rw [sockfd]
    exact List.mem_cons_self
  owned other member := by
    rcases List.mem_cons.mp member with rfl | old
    · exact stands
    · exact inv.owned other old
  closed other member := by
    obtain ⟨old, different⟩ := List.mem_filter.mp member
    obtain ⟨positive, gone⟩ := inv.closed other old
    refine ⟨positive, fun again => ?_⟩
    rcases List.mem_cons.mp again with same | back
    · exact of_decide_eq_true different same
    · exact gone back
  registered other member positive := List.mem_cons_of_mem _ (inv.registered other member positive)
  fault := inv.fault

private theorem Inv.shut (inv : Inv client l) (positive : 0 < client.sockfd)
    (free : client.sockfd ∉ l.registered) :
    Inv { client with sockfd := 0 } (l.shut client.sockfd) where
  plain := inv.plain
  isOpen impossible := absurd impossible (Int.lt_irrefl 0)
  owned fd member := inv.owned fd (List.mem_filter.mp member).1
  closed fd member := by
    rcases List.mem_cons.mp member with rfl | old
    · exact ⟨positive.le, fun again => of_decide_eq_true (List.mem_filter.mp again).2 rfl⟩
    · obtain ⟨stands, gone⟩ := inv.closed fd old
      exact ⟨stands, fun again => gone (List.mem_filter.mp again).1⟩
  registered fd member stands := by
    refine List.mem_filter.mpr ⟨inv.registered fd member stands, decide_eq_true fun same => ?_⟩
    exact free (same ▸ member)
  fault := inv.fault

private theorem Inv.register (inv : Inv client l)
    (held : 0 ≤ client.sockfd → client.sockfd ∈ l.owned) :
    Inv client (l.note (.createFileEvent client.sockfd true)) where
  plain := inv.plain
  isOpen := inv.isOpen
  owned := inv.owned
  closed := inv.closed
  registered fd member stands := by
    rcases List.mem_cons.mp member with rfl | old
    · exact held stands
    · exact inv.registered fd old stands
  fault := inv.fault

/-- A close of a registered socket leaves its registration behind. -/
theorem not_sound_shut {l : Ledger} (member : fd ∈ l.registered) : ¬ (l.shut fd).Sound :=
  fun sound => sound.2 fd List.mem_cons_self member

private theorem not_sound_of_fault {l : Ledger} (bad : l.fault = true) : ¬ l.Sound := by
  intro sound
  rw [sound.1] at bad
  cases bad

/-! ## Each method -/

private theorem close_inv (inv : Owns s) (info : Option Errno) :
    ledger (s.close info) =
        (if 0 < s.client.sockfd then (ledger s).shut s.client.sockfd else ledger s) ∧
      (Unregistered s → Owns (s.close info)) := by
  have entered : ledger (s.close info) =
      if 0 < s.client.sockfd then (ledger s).shut s.client.sockfd else ledger s := by
    rw [ledger_append (close_effects s info), Ledger.noteAll_close s.client inv.plain inv.isOpen]
  refine ⟨entered, fun free => ?_⟩
  rw [Owns, entered, close_client]
  by_cases positive : 0 < s.client.sockfd
  · rw [if_pos positive, if_pos positive]
    exact inv.shut positive (free positive)
  · rw [if_neg positive, if_neg positive]
    exact inv

private theorem close_broken (inv : Owns s) (info : Option Errno)
    (bad : ¬ Unregistered s) : ¬ (ledger (s.close info)).Sound := by
  obtain ⟨positive, member⟩ := Classical.not_imp.mp bad
  rw [(close_inv inv info).1, if_pos positive]
  exact not_sound_shut (not_not.mp member)

private theorem log_inv (inv : Owns s) (info : Option Errno) (held : Held s) :
    Owns (s.logTcpInfoEvent info) := by
  rw [Owns, ledger_append (logTcpInfoEvent_effects s info), Ledger.noteAll_log,
    Ledger.noteAll_info held, logTcpInfoEvent_client]
  exact inv

private theorem log_broken (info : Option Errno) (bad : ¬ Held s) :
    ¬ (ledger (s.logTcpInfoEvent info)).Sound := by
  obtain ⟨stands, stranger⟩ := Classical.not_imp.mp bad
  rw [ledger_append (logTcpInfoEvent_effects s info), Ledger.noteAll_log]
  exact not_sound_of_fault (Ledger.noteAll_info_stranger stands stranger)

private theorem connect_inv (inv : Owns s) (created : Bool) (info : Option Errno)
    (careful : Careful s (.notifiConnect created info)) :
    Owns (s.notifiConnect created info) := by
  obtain ⟨succeeds, held⟩ := careful
  rw [Owns, ledger_append (notifiConnect_effects s created info), connectCalls,
    Ledger.noteAll_append, Ledger.noteAll_log, notifiConnect_client]
  by_cases connected : s.client.connected = true
  · rw [if_pos connected, succeeds connected, if_pos rfl, List.append_nil]
    have registered := inv.register held
    have entered : (ledger s).noteAll [.createTimeEvent, .createFileEvent s.client.sockfd true] =
        (ledger s).note (.createFileEvent s.client.sockfd true) := rfl
    have looks : ((ledger s).note (.createFileEvent s.client.sockfd true)).noteAll
        (infoCalls s.client.sockfd) = _ := Ledger.noteAll_info held
    rw [entered, looks]
    exact registered
  · rw [if_neg connected]
    exact (Ledger.noteAll_info held).symm ▸ inv

private theorem connect_broken (inv : Owns s) (created : Bool) (info : Option Errno)
    (bad : ¬ Careful s (.notifiConnect created info)) :
    ¬ (ledger (s.notifiConnect created info)).Sound := by
  apply not_sound_of_fault
  rw [ledger_append (notifiConnect_effects s created info), connectCalls, Ledger.noteAll_append,
    Ledger.noteAll_log]
  by_cases failed : s.client.connected = true ∧ created = false
  · -- the close makes the socket a stranger to the look that follows
    obtain ⟨connected, rfl⟩ := failed
    rw [if_pos connected]
    have entered : (ledger s).noteAll ([.createTimeEvent, .createFileEvent s.client.sockfd false] ++
        if false = true then [] else [.close s.client.sockfd]) =
          ((ledger s).touch s.client.sockfd).shut s.client.sockfd := rfl
    rw [entered]
    by_cases own : s.client.sockfd ∈ (ledger s).owned
    · rw [Ledger.touch_owned own]
      apply Ledger.noteAll_info_stranger (inv.owned _ own)
      simp [Ledger.shut]
    · exact Ledger.noteAll_fault _ (Ledger.touch_stranger own)
  · have stranger : ¬ Held s := fun held => bad ⟨fun connected => by
      cases created with
      | false => exact absurd ⟨connected, rfl⟩ failed
      | true => rfl, held⟩
    obtain ⟨stands, stranger⟩ := Classical.not_imp.mp stranger
    by_cases connected : s.client.connected = true
    · cases created with
      | false => exact absurd ⟨connected, rfl⟩ failed
      | true =>
        rw [if_pos connected]
        exact Ledger.noteAll_info_stranger stands stranger
    · rw [if_neg connected]
      exact Ledger.noteAll_info_stranger stands stranger

/-- A `read` on a socket of its own is entered without a trace. -/
theorem noteAll_read (own : s.client.sockfd ∈ (ledger s).owned) (bytes : List UInt8)
    (calls : List ClientEffect) :
    (ledger s).noteAll (.read s.client.sockfd bytes :: calls) = (ledger s).noteAll calls := by
  rw [Ledger.noteAll, List.foldl_cons, Ledger.note, Ledger.touch_owned own]
  rfl

private theorem read_inv (inv : Owns s) (input : ClientInput)
    (careful : Careful s (.notifiRead input)) :
    Owns (s.turn input).1 := by
  obtain ⟨own, free⟩ := careful
  rcases turn_spec s input with ⟨chunk, _, client, grown⟩ | ⟨ends, last⟩
  · rw [Owns, ledger_append grown, noteAll_read own, Ledger.noteAll_deactive s.client fun _ => own,
      client]
    exact inv.frame rfl rfl
  · cases waits : wouldBlock (input.result.errnoAfter s.errno) with
    | true =>
      rw [if_pos waits] at last
      rw [Owns, ledger_append last.2, noteAll_read own, last.1]
      exact inv
    | false =>
      rw [if_neg (by simp [waits])] at last
      have closed := (close_inv inv none).2 (free ⟨ends, waits⟩)
      rw [Owns, ledger_append (close_effects s none), close_client] at closed
      rw [Owns, ledger_append last.2, noteAll_read own, last.1]
      exact closed

private theorem read_broken (inv : Owns s) (input : ClientInput)
    (bad : ¬ Careful s (.notifiRead input)) : ¬ (ledger (s.turn input).1).Sound := by
  by_cases own : s.client.sockfd ∈ (ledger s).owned
  · obtain ⟨⟨ends, waits⟩, registered⟩ := Classical.not_imp.mp fun free => bad ⟨own, free⟩
    rcases turn_spec s input with ⟨chunk, data, _⟩ | ⟨_, last⟩
    · exact absurd data (ends chunk)
    · rw [if_neg (by simp [waits])] at last
      have broken := close_broken inv none registered
      rw [ledger_append (close_effects s none)] at broken
      rw [ledger_append last.2, noteAll_read own]
      exact broken
  · apply not_sound_of_fault
    have reads : ∃ bytes calls, (s.turn input).1.effects =
        s.effects ++ .read s.client.sockfd bytes :: calls := by
      rcases turn_spec s input with ⟨chunk, _, _, grown⟩ | ⟨_, last⟩
      · exact ⟨_, _, grown⟩
      · split at last
        · exact ⟨_, _, last.2⟩
        · exact ⟨_, _, last.2⟩
    obtain ⟨bytes, calls, grown⟩ := reads
    rw [ledger_append grown, Ledger.noteAll, List.foldl_cons]
    exact Ledger.noteAll_fault calls (Ledger.touch_stranger own)

private theorem write_inv (inv : Owns s)
    (ran : s.nextWriteTime script nextTimems = some (next, time)) :
    Owns next := by
  by_cases idle : s.client.sockfd ≤ 0
  · rw [ClientState.nextWriteTime, if_pos idle] at ran
    cases ran
    exact inv
  · have own := inv.isOpen (by omega)
    rcases nextWriteTime_spec ran with rfl | ⟨_, sent, _, same, wrote⟩ | ⟨_, sent, _, same, wrote⟩
    · exact inv
    · obtain ⟨writes, grown, _, asks⟩ := wrote
      rw [Owns, ledger_append grown, Ledger.noteAll_writes own asks, same]
      exact inv.frame (by simp only [TcpClient.increaseWriteBytes])
        (by simp only [TcpClient.increaseWriteBytes])
    · obtain ⟨writes, grown, _, asks⟩ := wrote
      rw [Owns, ledger_append grown, Ledger.noteAll_writes own asks, same]
      exact inv.frame (by simp only [SenderStream.opened, TcpClient.increaseWriteBytes])
        (by simp only [SenderStream.opened, TcpClient.increaseWriteBytes])

private theorem bind_inv (inv : Owns s) (answer : Except Errno Int) (parses : Bool)
    (bound algo : Option Errno) (fresh : possible s (.bind answer parses bound algo) = true) :
    Owns (s.bind answer parses bound algo) := by
  cases answer with
  | error errno =>
    have none : ¬ (0 : Int) < -1 := by decide
    exact ⟨inv.plain, fun impossible => absurd impossible none, inv.owned, inv.closed,
      inv.registered, inv.fault⟩
  | ok fd =>
    have stands := (of_decide_eq_true fresh).1
    have grown : (s.bind (.ok fd) parses bound algo).effects = s.effects ++
        .socket fd :: if parses then [.bind fd, .setCongestionAlgo fd] else [] := by
      cases parses <;> simp [ClientState.bind, ClientState.setCongestionAlgo, ClientState.emit]
    rw [Owns, ledger_append grown]
    cases parses <;> exact inv.opened stands inv.plain rfl

/-- Calls that are not on a descriptor change nothing. -/
theorem Inv.quiet (inv : Owns s) (grown : next.effects = s.effects ++ calls)
    (quiet : (ledger s).noteAll calls = ledger s)
    (plain : next.client.readEventRegisted = s.client.readEventRegisted)
    (sockfd : next.client.sockfd = s.client.sockfd) : Owns next := by
  rw [Owns, ledger_append grown, quiet]
  exact inv.frame plain sockfd

private theorem asynConnect_inv (inv : Owns s) : Owns s.asynConnect := by
  unfold ClientState.asynConnect
  split
  · exact inv.quiet rfl rfl rfl rfl
  · exact inv

private theorem stopConectionThread_inv (inv : Owns s) : Owns s.stopConectionThread := by
  unfold ClientState.stopConectionThread
  split
  · exact inv.quiet rfl rfl rfl rfl
  · exact inv

private theorem synConnect_inv (inv : Owns s) (answer : Except Errno Unit) :
    Owns (s.synConnect answer) := by
  unfold ClientState.synConnect
  split
  · exact stopConectionThread_inv inv
  · apply stopConectionThread_inv
    have connects : Owns (s.emit (.connect s.client.sockfd)) := inv.quiet rfl rfl rfl rfl
    cases answer with
    | error errno => exact connects.quiet rfl rfl rfl rfl
    | ok => exact connects.quiet rfl rfl rfl rfl

private theorem step_inv (inv : Owns s) (careful : Careful s method)
    (took : step s method = some next) : Owns next := by
  rw [step, Option.ite_none_right_eq_some] at took
  obtain ⟨fresh, called⟩ := took
  cases method with
  | bind answer parses bound algo =>
    cases called
    exact bind_inv inv answer parses bound algo fresh
  | asynConnect =>
    cases called
    exact asynConnect_inv inv
  | synConnect answer =>
    cases called
    exact synConnect_inv inv answer
  | notifiConnect created info =>
    cases called
    exact connect_inv inv created info careful
  | nextWriteTime script nextTimems =>
    obtain ⟨⟨_, time⟩, ran, rfl⟩ := Option.map_eq_some_iff.mp called
    exact write_inv inv ran
  | notifiRead input =>
    cases called
    exact read_inv inv input careful
  | logTcpInfoEvent info =>
    cases called
    exact log_inv inv info careful
  | close info | destructor info =>
    cases called
    exact (close_inv inv info).2 careful
  | failedCall errno =>
    cases called
    exact inv

private theorem step_broken (inv : Owns s) (bad : ¬ Careful s method)
    (took : step s method = some next) : ¬ (ledger next).Sound := by
  rw [step, Option.ite_none_right_eq_some] at took
  obtain ⟨_, called⟩ := took
  cases method with
  | bind | asynConnect | synConnect | nextWriteTime | failedCall => exact absurd trivial bad
  | notifiConnect created info =>
    cases called
    exact connect_broken inv created info bad
  | notifiRead input =>
    cases called
    exact read_broken inv input bad
  | logTcpInfoEvent info =>
    cases called
    exact log_broken info bad
  | close info | destructor info =>
    cases called
    exact close_broken inv info bad

/-- A client touches only what it owns and leaves no registration behind, all through a run,
exactly if every call in the run is careful. -/
theorem descriptors_owned_iff (cid length : UInt32) (errno : Errno) (methods : List Method)
    (s : ClientState) (ran : run step (constructed cid length errno) methods = some s) :
    Always step (fun s => (ledger s).Sound) (constructed cid length errno) methods ↔
      Along step Careful (constructed cid length errno) methods :=
  always_iff_along (constructed_inv cid length errno)
    (fun _ inv => inv.sound) (fun _ _ _ inv careful took => step_inv inv careful took)
    (fun _ _ _ inv bad took => step_broken inv bad took) ran

/-- A client that connects and is registered. -/
def connects : List Method :=
  [.bind (.ok 5) true none none, .synConnect (.ok ()), .notifiConnect true none]

theorem connects_owned :
    Always step (fun s => (ledger s).Sound) (constructed 7 1400 0) connects := by
  obtain ⟨s, ran⟩ : ∃ s, run step (constructed 7 1400 0) connects = some s :=
    Option.isSome_iff_exists.mp (by decide +kernel)
  refine (descriptors_owned_iff 7 1400 0 connects s ran).mpr ?_
  refine along_cons.mpr ⟨trivial, fun bound first => along_cons.mpr ⟨trivial, fun mid second => ?_⟩⟩
  have evaluated : (run step (constructed 7 1400 0) (connects.take 2)).all
      (fun s => decide (s.client.sockfd ∈ (ledger s).owned)) = true := by decide +kernel
  have reached : run step (constructed 7 1400 0) (connects.take 2) = some mid :=
    run_cons.mpr ⟨bound, first, run_cons.mpr ⟨mid, second, rfl⟩⟩
  rw [reached] at evaluated
  have held : Held mid := fun _ => of_decide_eq_true evaluated
  exact along_cons.mpr ⟨⟨fun _ => rfl, held⟩, fun _ _ => along_nil _ _⟩

/-- A connected client that is closed stays registered; one that is asked for its statistics
after it was closed asks for those of descriptor 0; and a registration that fails is followed by
a look at the socket that was closed for it. -/
theorem careless_calls_unsound :
    (∃ s, run step (constructed 7 1400 0) [.bind (.ok 5) true none none, .synConnect (.ok ()),
      .notifiConnect true none, .close none] = some s ∧ ¬ (ledger s).Sound) ∧
    (∃ s, run step (constructed 7 1400 0) [.bind (.ok 5) true none none, .close none,
      .logTcpInfoEvent none] = some s ∧ ¬ (ledger s).Sound) ∧
    ∃ s, run step (constructed 7 1400 0) [.bind (.ok 5) true none none, .synConnect (.ok ()),
      .notifiConnect false none] = some s ∧ ¬ (ledger s).Sound := by
  refine ⟨?_, ?_, ?_⟩
  · have evaluated : (run step (constructed 7 1400 0) [.bind (.ok 5) true none none,
        .synConnect (.ok ()), .notifiConnect true none, .close none]).any (fun s =>
        decide (5 ∈ (ledger s).closed ∧ 5 ∈ (ledger s).registered)) = true := by decide +kernel
    obtain ⟨s, ran, stale⟩ := Option.any_eq_true _ _ |>.mp evaluated
    obtain ⟨closed, registered⟩ := of_decide_eq_true stale
    exact ⟨s, ran, fun sound => sound.2 5 closed registered⟩
  · have evaluated : (run step (constructed 7 1400 0) [.bind (.ok 5) true none none, .close none,
        .logTcpInfoEvent none]).any (fun s => (ledger s).fault) = true := by decide +kernel
    obtain ⟨s, ran, bad⟩ := Option.any_eq_true _ _ |>.mp evaluated
    exact ⟨s, ran, not_sound_of_fault bad⟩
  · have evaluated : (run step (constructed 7 1400 0) [.bind (.ok 5) true none none,
        .synConnect (.ok ()), .notifiConnect false none]).any (fun s => (ledger s).fault) = true := by
      decide +kernel
    obtain ⟨s, ran, bad⟩ := Option.any_eq_true _ _ |>.mp evaluated
    exact ⟨s, ran, not_sound_of_fault bad⟩

end TcpCongestion.ClientDescriptors
