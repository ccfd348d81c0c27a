import TcpCongestion.RedisIsolation

/-! How a `redis-main` process closes its connections. `ReadFromClient` has two places that call
`ClientClose`: the end of the loop, after which it returns, and the completion of a transfer,
after which it reads the descriptor again. -/
namespace TcpCongestion.Redis.Closing
open Posix Runs

/-! ## The calls of one callback -/

/-- The calls of one turn of the read loop. A `read` without data is not among the effects, so
it is put before them here. -/
def turnCalls (fd : Int) (s : State) (input : Input) (next : State) : List Effect :=
  let calls := next.effects.drop s.effects.length
  match if fd ∈ s.opened then input.result else .error EBADF with
  | .data _ => calls
  | .eof | .error _ => .read fd [] :: calls

/-- The calls of `ReadFromClient`, in order. -/
def calls (fd : Int) (now : Int64) : State → List Input → List Effect
  | _, [] => []
  | s, input :: rest =>
    match s.turn fd now input with
    | (next, false) => turnCalls fd s input next
    | (next, true) => turnCalls fd s input next ++ calls fd now next rest

/-- What `ClientClose` calls, itself included. -/
def closing (fd err : Int) : List Effect := [.clientClose fd err, .deleteFileEvent fd, .close fd]

private theorem calls_data (s : State) (isOpen : fd ∈ s.opened) (now : Int64) (read : Read)
    (rest : List Input) :
    calls fd now s (read.input :: rest) = .read fd read.chunk.bytes ::
        (s.globals.records now read.chunk.bytes read.input ++
          if (s.onData fd now read.chunk.bytes read.input).globals.completes
            then doneCalls fd read.write ++ closing fd read.chunk.bytes.length else []) ++
      calls fd now (s.onData fd now read.chunk.bytes read.input) rest := by
  have turn := s.onData_turn fd now read.chunk.bytes read.input
  rw [calls, State.turn_data s isOpen]
  dsimp only
  rw [turnCalls, if_pos isOpen, turn.effects]
  simp only [List.drop_left]
  rfl

/-- The exit of the loop closes the descriptor unless it has to wait. -/
theorem onReadEnd_effects (s : State) (fd err : Int) :
    (s.onReadEnd fd err).effects =
      s.effects ++ if wouldBlock s.errno then [] else closing fd err := by
  rw [State.onReadEnd]
  split
  · exact (List.append_nil _).symm
  · exact s.clientClose_effects fd err

private theorem calls_last (s : State) (isOpen : fd ∈ s.opened) (now : Int64)
    (stop : Option Errno) : ∃ err, calls fd now s [lastInput stop] =
      .read fd [] :: if staysOpen s.errno stop then [] else closing fd err := by
  rw [calls, State.turn, if_pos isOpen]
  cases stop with
  | none =>
    refine ⟨0, ?_⟩
    simp only [lastInput, Option.elim_none, turnCalls, if_pos isOpen, onReadEnd_effects,
      List.drop_left]
    rfl
  | some errno =>
    refine ⟨-1, ?_⟩
    simp only [lastInput, Option.elim_some, turnCalls, if_pos isOpen, onReadEnd_effects,
      List.drop_left]
    rfl

/-- A read of a descriptor the loop has closed fails, and the loop closes it again. -/
theorem calls_closed (s : State) (closed : fd ∉ s.opened) (now : Int64) (input : Input)
    (rest : List Input) : calls fd now s (input :: rest) = .read fd [] :: closing fd (-1) := by
  rw [calls, State.turn, if_neg closed]
  have fatal : { s with errno := EBADF }.onReadEnd fd (-1) =
    { s with errno := EBADF }.clientClose fd (-1) := rfl
  simp only [turnCalls, if_neg closed, fatal, State.clientClose_effects, List.drop_left]
  rfl

def gotData : Effect → Bool
  | .read _ bytes => !bytes.isEmpty
  | _ => true

private theorem turn_effects (s : State) (fd : Int) (now : Int64) (input : Input) :
    (s.turn fd now input).1.effects =
      s.effects ++ (turnCalls fd s input (s.turn fd now input).1).filter gotData := by
  have ends : ∀ (s : State) (err : Int), (.read fd [] ::
      (s.onReadEnd fd err).effects.drop s.effects.length).filter gotData =
        if wouldBlock s.errno then [] else closing fd err := by
    intro s err
    rw [onReadEnd_effects, List.drop_left]
    split <;> rfl
  rw [State.turn, turnCalls]
  generalize (if fd ∈ s.opened then input.result else .error EBADF) = result
  cases result with
  | data chunk =>
    dsimp only
    rw [(s.onData_turn fd now chunk.bytes input).effects, List.drop_left]
    congr 1
    have some : chunk.bytes ≠ [] := List.ne_nil_of_length_pos chunk.nonempty
    refine (List.filter_eq_self.mpr fun effect member => ?_).symm
    rcases List.mem_cons.mp member with rfl | member
    · simpa [gotData] using some
    · rcases List.mem_append.mp member with logged | closed
      · obtain ⟨_, _, rfl⟩ := Globals.mem_records logged
        rfl
      · split at closed
        · simp only [doneCalls, List.cons_append, List.nil_append, List.mem_cons,
            List.not_mem_nil, or_false] at closed
          rcases closed with rfl | rfl | rfl | rfl | rfl <;> rfl
        · exact absurd closed List.not_mem_nil
  | eof =>
    dsimp only
    rw [ends s 0]
    exact onReadEnd_effects s fd 0
  | error errno =>
    have last := ends { s with errno } (-1)
    dsimp only at last ⊢
    rw [last]
    exact onReadEnd_effects { s with errno } fd (-1)

/-- But for the reads without data, these are the effects of the callback. -/
theorem calls_effects (fd : Int) (now : Int64) (s : State) (inputs : List Input) :
    (State.readFromClient fd now s inputs).effects =
      s.effects ++ (calls fd now s inputs).filter gotData := by
  induction inputs generalizing s with
  | nil => exact (List.append_nil _).symm
  | cons input rest ih =>
    have first := turn_effects s fd now input
    rw [State.readFromClient, calls]
    generalize s.turn fd now input = turned at first ⊢
    obtain ⟨next, again⟩ := turned
    dsimp only at first
    cases again with
    | false => exact first
    | true =>
      dsimp only
      rw [ih next, first, List.filter_append, List.append_assoc]

/-! ## A whole callback -/

def closesOn (fd : Int) : Effect → Bool
  | .clientClose other _ => other = fd
  | _ => false

def touches (fd : Int) : Effect → Bool
  | .read other _ => other = fd
  | .write other _ => other = fd
  | _ => false

/-- What one read with data does to the rest of the callback. The flag of `consume` is whether
the transfer is still incomplete. -/
inductive Consumed (fd : Int) (now : Int64) (s : State) (read : Read) (rest : List Read)
    (more : List Input) : Prop
  | completes (next : State) (closed : fd ∉ next.opened)
      (flag : (consume fd now s.globals (read :: rest)).2.2 = false)
      (made : calls fd now s (read.input :: more) = .read fd read.chunk.bytes ::
        (s.globals.records now read.chunk.bytes read.input ++
          (doneCalls fd read.write ++ closing fd read.chunk.bytes.length)) ++
          calls fd now next more)
  | continues (next : State) (isOpen : fd ∈ next.opened)
      (errno : next.errno = s.errno)
      (flag : (consume fd now s.globals (read :: rest)).2.2 =
        (consume fd now next.globals rest).2.2)
      (made : calls fd now s (read.input :: more) =
        .read fd read.chunk.bytes :: s.globals.records now read.chunk.bytes read.input ++
          calls fd now next more)

private theorem calls_consumed (s : State) (isOpen : fd ∈ s.opened) (now : Int64) (read : Read)
    (rest : List Read) (more : List Input) : Consumed fd now s read rest more := by
  have turn := s.onData_turn fd now read.chunk.bytes read.input
  have opened := turn.opened
  have made := calls_data s isOpen now read more
  have flag : (consume fd now s.globals (read :: rest)).2.2 =
      if (s.onData fd now read.chunk.bytes read.input).globals.completes then false
      else (consume fd now (s.onData fd now read.chunk.bytes read.input).globals rest).2.2 := by
    rw [consume]
    dsimp only
    rw [← turn.globals]
    split <;> rfl
  generalize s.onData fd now read.chunk.bytes read.input = next at turn opened made flag
  by_cases complete : next.globals.completes = true
  · rw [if_pos complete] at opened made flag
    exact .completes next (by simp [opened]) flag made
  · rw [if_neg complete] at opened made flag
    rw [List.append_nil] at made
    exact .continues next (opened ▸ isOpen) (turn.errno (Bool.eq_false_iff.mpr complete))
      flag made

/-- A callback that does not complete the transfer closes at its end or not at all. -/
theorem calls_incomplete (s : State) (isOpen : fd ∈ s.opened) (callback : Callback)
    (incomplete : (consume fd callback.now s.globals callback.reads).2.2 = true) :
    ∃ early err, calls fd callback.now s callback.inputs = early ++ .read fd [] ::
        (if staysOpen s.errno callback.stop then [] else closing fd err) ∧
      ∀ effect ∈ early, ¬ closesOn fd effect = true := by
  obtain ⟨now, reads, stop⟩ := callback
  simp only [Callback.inputs] at incomplete ⊢
  induction reads generalizing s with
  | nil =>
    obtain ⟨err, last⟩ := calls_last s isOpen now stop
    exact ⟨[], err, last, by simp⟩
  | cons read rest ih =>
    rw [List.map_cons, List.cons_append]
    cases calls_consumed s isOpen now read rest (rest.map Read.input ++ [lastInput stop]) with
    | completes next closed flag made => cases flag.symm.trans incomplete
    | continues next stillOpen errno flag made =>
      obtain ⟨early, err, later, quiet⟩ := ih next stillOpen (flag ▸ incomplete)
      refine ⟨.read fd read.chunk.bytes :: s.globals.records now read.chunk.bytes read.input ++
        early, err, ?_, ?_⟩
      · rw [made, later, errno, List.append_assoc]
      · intro effect member
        rcases List.mem_append.mp member with front | back
        · rcases List.mem_cons.mp front with rfl | logged
          · exact Bool.false_ne_true
          · obtain ⟨_, _, rfl⟩ := Globals.mem_records logged
            exact Bool.false_ne_true
        · exact quiet effect back

/-- One that completes it closes twice. -/
theorem calls_complete (s : State) (isOpen : fd ∈ s.opened) (callback : Callback)
    (complete : (consume fd callback.now s.globals callback.reads).2.2 = false) :
    2 ≤ (calls fd callback.now s callback.inputs).countP (closesOn fd) := by
  obtain ⟨now, reads, stop⟩ := callback
  simp only [Callback.inputs] at complete ⊢
  induction reads generalizing s with
  | nil => cases complete
  | cons read rest ih =>
    rw [List.map_cons, List.cons_append]
    cases calls_consumed s isOpen now read rest (rest.map Read.input ++ [lastInput stop]) with
    | completes next closed flag made =>
      -- whatever was to be read next, the descriptor is gone
      obtain ⟨input, others, more⟩ : ∃ input others,
          rest.map Read.input ++ [lastInput stop] = input :: others :=
        List.exists_cons_of_ne_nil (by simp)
      rw [made, more, calls_closed next closed]
      simp only [List.countP_append, List.countP_cons, closing, closesOn]
      simp
      omega
    | continues next stillOpen errno flag made =>
      have later := ih next stillOpen (flag ▸ complete)
      rw [made, List.countP_append]
      omega

/-! ## The process -/

/-- The calls made for a connection, callback by callback: it is closed at most once, and from
then on the callback leaves the descriptor alone. -/
structure Orderly (fd : Int) (callbacks : List (List Effect)) : Prop where
  once : callbacks.flatten.countP (closesOn fd) ≤ 1
  last : ∀ calls ∈ callbacks, ∀ effect ∈ calls.dropWhile (fun effect => !closesOn fd effect),
    touches fd effect = false

/-- The process with the calls it made for each connection. -/
structure Logged where
  server : Server
  log : Nat → List (List Effect)

def noted (l : Logged) : Event → Nat → List (List Effect)
  | .acceptTcpHandler _ _ _ => l.log
  | .readFromClient id callback =>
    match l.server.conns id with
    | none => l.log
    | some conn =>
      if conn.live then
        Function.update l.log id (l.log id ++
          [calls conn.fd callback.now { l.server.state with effects := [] } callback.inputs])
      else l.log

def start (listenfd : Int) (errno : Errno) : Logged := ⟨Server.start listenfd errno, fun _ => []⟩

def step (listenfd : Int) (l : Logged) (event : Event) : Option Logged :=
  (Server.step listenfd l.server event).map fun next => ⟨next, noted l event⟩

/-- Every connection there has been was closed in order. -/
def Tidy (l : Logged) : Prop :=
  ∀ id conn, l.server.conns id = some conn → Orderly conn.fd (l.log id)

/-- The callback does not complete the transfer. -/
def Incomplete (l : Logged) : Event → Prop
  | .acceptTcpHandler _ _ _ => True
  | .readFromClient id callback => ∀ conn ∈ l.server.conns id, conn.live = true →
    (consume conn.fd callback.now l.server.state.globals callback.reads).2.2 = true

/-- The calls made for one connection: none before it is accepted, and no close while it is
live. -/
structure Kept (held : Option Conn) (log : List (List Effect)) : Prop where
  unknown : held = none → log = []
  orderly : ∀ conn, held = some conn → Orderly conn.fd log
  unclosed : ∀ conn, held = some conn → conn.live = true →
    log.flatten.countP (closesOn conn.fd) = 0

structure Inv (listenfd : Int) (l : Logged) : Prop where
  inv : Server.Inv listenfd l.server
  kept : ∀ id, Kept (l.server.conns id) (l.log id)

private theorem start_inv (listenfd : Int) (errno : Errno) : Inv listenfd (start listenfd errno) :=
  ⟨Server.start_inv listenfd errno, fun _ =>
    ⟨fun _ => rfl, fun _ known => (nomatch known), fun _ known => (nomatch known)⟩⟩

private theorem noted_other {id : Nat} (l : Logged) (other : event.id ≠ id) :
    noted l event id = l.log id := by
  cases event with
  | acceptTcpHandler => rfl
  | readFromClient who callback =>
    rw [noted]
    cases l.server.conns who with
    | none => rfl
    | some conn =>
      dsimp only
      split
      · exact Function.update_of_ne (Ne.symm other) _ _
      · rfl

/-- A callback that closes at its end keeps the order. -/
theorem Orderly.called (orderly : Orderly fd earlier)
    (unclosed : earlier.flatten.countP (closesOn fd) = 0)
    (quiet : ∀ effect ∈ early, ¬ closesOn fd effect = true) (stays : Bool) (err : Int) :
    let made := early ++ .read fd [] :: (if stays then [] else closing fd err)
    Orderly fd (earlier ++ [made]) ∧
      (stays = true → (earlier ++ [made]).flatten.countP (closesOn fd) = 0) := by
  intro made
  have none : early.countP (closesOn fd) = 0 := List.countP_eq_zero.mpr quiet
  have count : (earlier ++ [made]).flatten.countP (closesOn fd) = if stays then 0 else 1 := by
    rw [List.flatten_append, List.countP_append, unclosed, List.flatten_singleton]
    cases stays <;> simp [made, none, closing, closesOn]
  refine ⟨⟨?_, ?_⟩, fun still => by rw [count, if_pos still]⟩
  · rw [count]
    split <;> omega
  · intro calls member effect after
    rcases List.mem_append.mp member with old | new
    · exact orderly.last calls old effect after
    · rw [List.mem_singleton.mp new] at after
      have skip : ∀ effect ∈ early, (!closesOn fd effect) = true := by simpa using quiet
      rw [List.dropWhile_append_of_pos skip] at after
      cases stays with
      | true => simp [closesOn] at after
      | false =>
        simp only [closing, closesOn] at after
        simp at after
        rcases after with rfl | rfl | rfl <;> rfl

private theorem Kept.accepted (kept : Kept none log) : Kept (some ⟨cfd, created, [], []⟩) log := by
  rw [kept.unknown rfl]
  refine ⟨fun impossible => (nomatch impossible), ?_, ?_⟩
  · rintro conn -
    exact ⟨Nat.zero_le _, by simp⟩
  · rintro conn - -
    rfl

private theorem Kept.called (kept : Kept (some conn) log) (live : conn.live = true)
    (quiet : ∀ effect ∈ early, ¬ closesOn conn.fd effect = true) (stays : Bool) (err : Int)
    (view : List Effect) (counts : List Int32) :
    Kept (some ⟨conn.fd, stays, view, counts⟩) (log ++
      [early ++ .read conn.fd [] :: (if stays then [] else closing conn.fd err)]) := by
  obtain ⟨orderly, unclosed⟩ := (kept.orderly conn rfl).called (kept.unclosed conn rfl live) quiet
    stays err
  refine ⟨fun impossible => (nomatch impossible), ?_, ?_⟩
  · rintro _ ⟨⟩
    exact orderly
  · rintro _ ⟨⟩ still
    exact unclosed still

private theorem noted_called {id : Nat} {l : Logged} (known : l.server.conns id = some conn)
    (live : conn.live = true) (callback : Callback) :
    noted l (.readFromClient id callback) id = l.log id ++
      [calls conn.fd callback.now { l.server.state with effects := [] } callback.inputs] := by
  rw [noted, known]
  dsimp only
  rw [if_pos live, Function.update_self]

private theorem step_inv (held : Inv listenfd l) (fine : Incomplete l event)
    (took : step listenfd l event = some next) : Inv listenfd next := by
  obtain ⟨server, stepped, rfl⟩ := Option.map_eq_some_iff.mp took
  have outcome := Server.step_outcome held.inv stepped
  refine ⟨outcome.inv held.inv, fun id => ?_⟩
  by_cases mine : event.id = id
  · subst mine
    have kept := held.kept event.id
    cases outcome with
    | accepted id cfd created listening fresh unknown =>
      rw [Event.id, unknown] at kept
      dsimp only [Event.id]
      rw [Function.update_self]
      exact kept.accepted
    | idle id callback conn known dead =>
      have same : noted l (.readFromClient id callback) = l.log := by
        rw [noted, known]
        exact if_neg (by simp [dead])
      rw [same]
      exact kept
    | called id callback conn known live _ ran =>
      rw [Event.id, known] at kept
      have incomplete := fine conn known live
      obtain ⟨early, err, made, quiet⟩ := calls_incomplete { l.server.state with effects := [] }
        (held.inv.isOpen id conn known live) callback incomplete
      dsimp only [Event.id]
      rw [noted_called known live, made, ran.conns, Function.update_self, incomplete, Bool.true_and]
      exact kept.called live quiet _ err _ _
  · dsimp only
    rw [outcome.frame mine, noted_other l mine]
    exact held.kept id

/-- The callback that completes a transfer closes the connection twice. -/
theorem step_broken (held : Inv listenfd l) (bad : ¬ Incomplete l event)
    (took : step listenfd l event = some next) : ¬ Tidy next := by
  obtain ⟨server, stepped, rfl⟩ := Option.map_eq_some_iff.mp took
  cases event with
  | acceptTcpHandler => exact absurd trivial bad
  | readFromClient id callback =>
    simp only [Incomplete, not_forall] at bad
    obtain ⟨conn, known, live, complete⟩ := bad
    obtain ⟨_, again, ran⟩ := Server.step_called held.inv known live callback
    cases again.symm.trans stepped
    intro tidy
    have once := (tidy id _ (by rw [ran.conns, Function.update_self])).once
    have twice := calls_complete { l.server.state with effects := [] }
      (held.inv.isOpen id conn known live) callback (Bool.eq_false_iff.mpr complete)
    dsimp only at once
    rw [noted_called known live, List.flatten_append, List.flatten_singleton,
      List.countP_append] at once
    omega

/-- All through a run connections are closed once and then left alone exactly if no callback
completes a transfer. -/
theorem closes_once_iff (listenfd : Int) (errno : Errno) (events : List Event) (l : Logged)
    (ran : run (step listenfd) (start listenfd errno) events = some l) :
    Always (step listenfd) Tidy (start listenfd errno) events ↔
      Along (step listenfd) Incomplete (start listenfd errno) events :=
  always_iff_along (start_inv listenfd errno)
    (fun _ held id conn known => (held.kept id).orderly conn known)
    (fun _ _ _ held fine took => step_inv held fine took)
    (fun _ _ _ held bad took => step_broken held bad took) ran

instance (l : Logged) : (event : Event) → Decidable (Incomplete l event)
  | .acceptTcpHandler _ _ _ => instDecidableTrue
  | .readFromClient id callback => inferInstanceAs (Decidable (∀ conn ∈ l.server.conns id,
      conn.live = true →
        (consume conn.fd callback.now l.server.state.globals callback.reads).2.2 = true))

/-- A client that goes away before it has sent all it announced. -/
def cutShort : List Event :=
  [.acceptTcpHandler 0 5 true, .readFromClient 0 (greeting 1 16),
    .readFromClient 0 ⟨0, [], some ECONNRESET⟩]

theorem cut_short_closed_once :
    Always (step 3) Tidy (start 3 0) cutShort := by
  obtain ⟨l, ran⟩ : ∃ l, run (step 3) (start 3 0) cutShort = some l :=
    Option.isSome_iff_exists.mp (by decide +kernel)
  exact (closes_once_iff 3 0 cutShort l ran).mpr (by decide +kernel)

/-- A client that sends the eight bytes it announced: the done message is followed by a close,
a read of the closed descriptor and a second close. -/
theorem completed_closed_twice :
    ∃ l, run (step 3) (start 3 0)
        [.acceptTcpHandler 0 5 true, .readFromClient 0 (greeting 1 8)] = some l ∧
      ((l.log 0).flatten.dropWhile fun effect => !closesOn 5 effect) =
        closing 5 8 ++ .read 5 [] :: closing 5 (-1) ∧ ¬ Tidy l := by
  have evaluated : (run (step 3) (start 3 0)
      [.acceptTcpHandler 0 5 true, .readFromClient 0 (greeting 1 8)]).any (fun l =>
        decide ((l.server.conns 0).map Conn.fd = some 5 ∧
          ((l.log 0).flatten.dropWhile fun effect => !closesOn 5 effect) =
            closing 5 8 ++ .read 5 [] :: closing 5 (-1) ∧
          (l.log 0).flatten.countP (closesOn 5) = 2)) = true := by
    decide +kernel
  obtain ⟨l, ran, facts⟩ := Option.any_eq_true _ _ |>.mp evaluated
  obtain ⟨known, made, two⟩ := of_decide_eq_true facts
  obtain ⟨conn, held, fd⟩ := Option.map_eq_some_iff.mp known
  refine ⟨l, ran, made, fun tidy => ?_⟩
  have once := (tidy 0 conn held).once
  rw [fd, two] at once
  exact absurd once (by decide)

end TcpCongestion.Redis.Closing
