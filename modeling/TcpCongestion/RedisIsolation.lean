import TcpCongestion.RedisServer
import TcpCongestion.Runs

/-! When the connections of a `redis-main` process do not disturb each other. Each sends a stream
of its own that opens with an announcement, but the variables are the process's: what is seen and
counted of a connection is its own business only while nothing is read from any other. -/
namespace TcpCongestion.Redis
open Posix ByteCodecProofs TcpPeerProofs Runs

/-- A stream begins with an announcement that the first `read` gets whole, and nothing follows
its end. -/
structure Stream (id total : UInt32) (callbacks : List Callback) : Prop where
  opening : ∀ first, (pieces callbacks).head? = some first →
    ∃ rest, first = announcement id total ++ rest
  closing : ∀ before callback after, callbacks = before ++ callback :: after →
    callback.stop = none → pieces after = []

/-- The bytes a connection has been relieved of. -/
def received (view : List Effect) : List UInt8 :=
  view.flatMap fun
    | .read _ bytes => bytes
    | _ => []

/-- The done message goes out only when the announced bytes have come in. -/
def Earned (total : UInt32) (view : List Effect) : Prop :=
  ∀ before fd after, view = before ++ .sendReadDone fd :: after →
    total.toNat ≤ (received before).length

/-- The same process with this connection alone does and records the same for it and counts the
same after each of its reads. -/
def Unaffected (listenfd : Int) (errno : Errno) (events : List Event) (id : Nat)
    (conn : Conn) : Prop :=
  ∃ alone conn', run (Server.step listenfd) (Server.start listenfd errno)
    (events.filter (·.id = id)) = some alone ∧ alone.conns id = some conn' ∧
      conn'.view = conn.view ∧ conn'.counts = conn.counts

namespace Server

/-! ## One connection alone -/

/-- The run with every connection and the run with this one alone, side by side. `rest` is what
is still to come: when it has no data for the connection the two may differ in what nobody can
see. -/
structure Twin (listenfd : Int) (errno : Errno) (id : Nat) (rest : List Event)
    (s alone : Server) : Prop where
  inv : Inv listenfd alone
  globals : pieces (served listenfd id s rest) = [] ∨ alone.state.globals = s.state.globals
  conns : (s.conns id = none ∧ alone = start listenfd errno) ∨
    ∃ conn live, s.conns id = some conn ∧ alone.conns id = some { conn with live } ∧
      (pieces (callbacks id rest) = [] ∨ live = conn.live)

/-- If the loop reads from this connection, it reads from no other. -/
def Sole (listenfd : Int) (id : Nat) (s : Server) (events : List Event) : Prop :=
  pieces (served listenfd id s events) = [] ∨
    ∀ other, other ≠ id → pieces (served listenfd other s events) = []

private theorem Sole.tail {id : Nat} (sole : Sole listenfd id s (event :: rest))
    (took : step listenfd s event = some next) : Sole listenfd id next rest :=
  sole.imp (fun nothing => (served_quiet_cons took nothing).2)
    fun others other different => (served_quiet_cons took (others other different)).2

private theorem Twin.other {id : Nat} (inv : Inv listenfd s)
    (twin : Twin listenfd errno id (event :: rest) s alone)
    (sole : Sole listenfd id s (event :: rest)) (took : step listenfd s event = some next)
    (other : event.id ≠ id) : Twin listenfd errno id rest next alone := by
  have outcome := step_outcome inv took
  obtain ⟨still, globals, conns⟩ := twin
  rw [served_cons took, made_other s other, List.nil_append] at globals
  rw [callbacks_cons_other other] at conns
  refine ⟨still, ?_, ?_⟩
  · rcases sole with nothing | others
    · exact .inl (served_quiet_cons took nothing).2
    · rw [outcome.quiet (served_quiet_cons took (others event.id other)).1]
      exact globals
  · rw [outcome.frame other]
    exact conns

/-- A callback of a connection that is live in both runs. -/
theorem answered_alike (conn : Conn) (s alone : State) (callback : Callback)
    (alike : callback.reads = [] ∨ alone.globals = s.globals) :
    ∃ live, (answered conn alone callback).1 = { (answered conn s callback).1 with live } ∧
      (callback.stop ≠ none → live = (answered conn s callback).1.live) := by
  have last : ∀ g : Globals, callback.stop ≠ none →
      ((consume conn.fd callback.now g callback.reads).2.2 &&
        staysOpen alone.errno callback.stop) =
      ((consume conn.fd callback.now g callback.reads).2.2 &&
        staysOpen s.errno callback.stop) := by
    intro g more
    obtain ⟨errno, stop⟩ := Option.ne_none_iff_exists'.mp more
    rw [stop]
    rfl
  refine ⟨(answered conn alone callback).1.live, ?_, fun more => ?_⟩
  · rcases alike with nothing | same
    · rw [answered_quiet conn alone nothing, answered_quiet conn s nothing]
    · simp only [answered, same]
      split <;> rfl
  · rcases alike with nothing | same
    · obtain ⟨errno, stop⟩ := Option.ne_none_iff_exists'.mp more
      rw [answered_quiet conn alone nothing, answered_quiet conn s nothing, stop]
      rfl
    · simp only [answered, same]
      split
      · exact last s.globals more
      · rfl

private theorem Twin.stepped {id : Nat} (inv : Inv listenfd s)
    (twin : Twin listenfd errno id (.readFromClient id callback :: rest) s alone)
    (took : step listenfd s (.readFromClient id callback) = some next)
    (closing : callback.stop = none → pieces (callbacks id rest) = []) :
    ∃ next', step listenfd alone (.readFromClient id callback) = some next' ∧
      Twin listenfd errno id rest next next' := by
  rcases twin.conns with ⟨unknown, _⟩ | ⟨conn, live, known, known', alive⟩
  · simp only [step, unknown] at took
    cases took
  obtain ⟨_, again, held, globals⟩ := callback_step inv known callback
  cases again.symm.trans took
  obtain ⟨next', took', held', globals'⟩ := callback_step twin.inv known' callback
  have inv' := (step_outcome twin.inv took').inv twin.inv
  refine ⟨next', took', ?_⟩
  rw [callbacks, if_pos rfl] at alive
  by_cases quiet : pieces (callback :: callbacks id rest) = []
  · obtain ⟨nothing, later⟩ := reads_of_quiet quiet
    rw [answered_quiet _ _ nothing] at held held'
    exact ⟨inv', .inl (served_of_nothing later next), .inr ⟨_, _, held, held', .inl later⟩⟩
  · obtain rfl := alive.resolve_left quiet
    have same := twin.globals
    rw [served_cons took] at same
    cases lives : conn.live with
    | false =>
      -- neither run makes the callback
      rw [made_dead known lives, List.nil_append] at same
      simp only [answered, lives, Bool.false_eq_true, if_false] at held held' globals globals'
      rw [← globals, ← globals'] at same
      exact ⟨inv', same, .inr ⟨_, _, held, held', .inr lives.symm⟩⟩
    | true =>
      rw [made_live known lives, List.singleton_append] at same
      obtain ⟨live', answers, stays⟩ := answered_alike conn s.state alone.state callback
        (same.imp_left fun nothing => (reads_of_quiet nothing).1)
      refine ⟨inv', ?_, .inr ⟨_, live', held, held'.trans (congrArg some answers), ?_⟩⟩
      · rcases same with nothing | same
        · exact .inl (reads_of_quiet nothing).2
        · right
          rw [globals, globals']
          simp only [answered, same]
          split <;> rfl
      · by_cases stop : callback.stop = none
        · exact .inl (closing stop)
        · exact .inr (stays stop)

private theorem Twin.accepted {id : Nat}
    (twin : Twin listenfd errno id (.acceptTcpHandler id cfd created :: rest) s alone)
    (took : step listenfd s (.acceptTcpHandler id cfd created) = some next) :
    ∃ next', step listenfd alone (.acceptTcpHandler id cfd created) = some next' ∧
      Twin listenfd errno id rest next next' := by
  have same := twin.globals
  rw [served_cons took, made, List.nil_append] at same
  rw [step] at took
  split at took
  · rename_i possible
    obtain ⟨listening, fresh, unknown⟩ := possible
    cases took
    rcases twin.conns with ⟨_, begins⟩ | ⟨_, _, known, _⟩
    · subst begins
      have own : cfd ≠ listenfd := fun same => fresh (same ▸ listening)
      have again : step listenfd (start listenfd errno) (.acceptTcpHandler id cfd created) =
          some _ := if_pos (by simp [start, own])
      have inv' := (step_outcome twin.inv again).inv twin.inv
      refine ⟨_, again, inv', ?_, .inr ⟨_, _, Function.update_self .., Function.update_self ..,
        .inr rfl⟩⟩
      cases created <;> exact same
    · rw [known] at unknown
      cases unknown
  · cases took

private theorem twin_run {id : Nat} (inv : Inv listenfd s)
    (twin : Twin listenfd errno id events s alone) (sole : Sole listenfd id s events)
    (closing : ∀ before callback after, callbacks id events = before ++ callback :: after →
      callback.stop = none → pieces after = [])
    (ran : run (step listenfd) s events = some last) :
    ∃ last', run (step listenfd) alone (events.filter (·.id = id)) = some last' ∧
      Twin listenfd errno id [] last last' := by
  induction events generalizing s alone with
  | nil =>
    cases ran
    exact ⟨alone, rfl, twin⟩
  | cons event rest ih =>
    obtain ⟨next, took, onward⟩ := run_cons.mp ran
    have kept := (step_outcome inv took).inv inv
    by_cases mine : event.id = id
    · have moves : ∃ next', step listenfd alone event = some next' ∧
          Twin listenfd errno id rest next next' := by
        subst mine
        cases event with
        | acceptTcpHandler who cfd created => exact twin.accepted took
        | readFromClient who callback =>
          rw [Event.id, callbacks, if_pos rfl] at closing
          exact twin.stepped inv took (closing [] callback _ rfl)
      obtain ⟨next', took', twin'⟩ := moves
      have later : ∀ before callback after, callbacks id rest = before ++ callback :: after →
          callback.stop = none → pieces after = [] := by
        subst mine
        rw [callbacks_cons_self] at closing
        intro before callback after split
        exact closing (callbacks event.id [event] ++ before) callback after (by simp [split])
      obtain ⟨last', ran', done⟩ := ih kept twin' (sole.tail took) later onward
      refine ⟨last', ?_, done⟩
      rw [List.filter_cons_of_pos (by simpa using mine), run, took']
      exact ran'
    · have twin' := twin.other inv sole took mine
      rw [callbacks_cons_other mine] at closing
      obtain ⟨last', ran', done⟩ := ih kept twin' (sole.tail took) closing onward
      refine ⟨last', ?_, done⟩
      rw [List.filter_cons_of_neg (by simpa using mine)]
      exact ran'

private theorem unaffected {id : Nat} (sole : Sole listenfd id (start listenfd errno) events)
    (stream : Stream ident total (callbacks id events))
    (ran : run (step listenfd) (start listenfd errno) events = some s)
    (known : s.conns id = some conn) : Unaffected listenfd errno events id conn := by
  have begins : Twin listenfd errno id events (start listenfd errno) (start listenfd errno) :=
    ⟨start_inv listenfd errno, .inr rfl, .inl ⟨rfl, rfl⟩⟩
  obtain ⟨alone, ran', twin⟩ := twin_run (start_inv listenfd errno) begins sole stream.closing ran
  rcases twin.conns with ⟨unknown, _⟩ | ⟨_, live, known', held, _⟩
  · rw [known] at unknown
    cases unknown
  · cases known.symm.trans known'
    exact ⟨alone, _, ran', held, rfl, rfl⟩

end Server

/-! ## The count of the connection that sends -/

/-- While the announced total is a positive `int`, the comparison of the wrapped count cannot
succeed too early. -/
theorem total_le_of_completes (total : UInt32) (small : total.toNat < 2 ^ 31)
    (reached : total.toInt32 ≤ Int32.ofNat count) : total.toNat ≤ count := by
  have signed : total.toInt32 = Int32.ofNat total.toNat := by
    apply Int32.toBitVec_inj.mp
    simp
  have size : ((Int32.size : Nat) : Int) = 4294967296 := rfl
  rw [signed, Int32.le_iff_toInt_le, Int32.toInt_ofNat', Int32.toInt_ofNat', Int.bmod_def,
    Int.bmod_def, size] at reached
  split_ifs at reached <;> omega

private theorem received_append (view more : List Effect) :
    received (view ++ more) = received view ++ received more := List.flatMap_append

private theorem Earned.append (earned : Earned total view)
    (more : ∀ before fd after, added = before ++ .sendReadDone fd :: after →
      total.toNat ≤ (received (view ++ before)).length) : Earned total (view ++ added) := by
  intro before fd after split
  rcases List.append_eq_append_iff.mp split with ⟨middle, rfl, rest⟩ | ⟨middle, whole, rest⟩
  · exact more middle fd after rest
  · cases middle with
    | nil =>
      rw [List.append_nil] at whole
      subst whole
      simpa using more [] fd after rest.symm
    | cons first tail =>
      cases rest
      exact earned before fd tail whole

/-- The variables as the one sender's transfer has them. -/
structure Ledger (total : UInt32) (view : List Effect) (g : Globals) : Prop where
  firstPacket : g.firstPacket = (received view).isEmpty
  bytesTotal : received view ≠ [] → g.bytesTotal = total.toInt32
  bytesRead : g.bytesRead = Int32.ofNat (received view).length
  earned : Earned total view

/-- The first of the pieces, if there is any, holds the announcement. -/
def Opens (ident total : UInt32) (pieces : List (List UInt8)) : Prop :=
  ∀ first, pieces.head? = some first → ∃ rest, first = announcement ident total ++ rest

private theorem Earned.quiet (earned : Earned total view) (quiet : ∀ fd, .sendReadDone fd ∉ added) :
    Earned total (view ++ added) := by
  refine earned.append fun before fd after split => ?_
  exact absurd (split ▸ List.mem_append_right before List.mem_cons_self) (quiet fd)

private theorem received_records (g : Globals) (now : Int64) (bytes : List UInt8) (input : Input) :
    received (g.records now bytes input) = [] := by
  apply List.flatMap_eq_nil_iff.mpr
  intro effect member
  obtain ⟨id, count, rfl⟩ := Globals.mem_records member
  rfl

private theorem received_read (view : List Effect) (fd : Int) (bytes : List UInt8)
    (more : List Effect) :
    received (view ++ .read fd bytes :: more) = received view ++ (bytes ++ received more) := by
  rw [received_append]
  rfl

/-- One more piece. -/
theorem Ledger.read (ledger : Ledger total view g) (fd : Int) (now : Int64) (read : Read)
    (opens : received view = [] → ∃ rest, read.chunk.bytes = announcement ident total ++ rest) :
    Ledger total
      (view ++ .read fd read.chunk.bytes :: g.records now read.chunk.bytes read.input)
      (g.advance now read.chunk.bytes read.input) := by
  have nonempty : received view ++ read.chunk.bytes ≠ [] := by
    have positive := read.chunk.nonempty
    exact List.append_ne_nil_of_right_ne_nil _ (List.ne_nil_of_length_pos positive)
  have grown : received (view ++ .read fd read.chunk.bytes ::
      g.records now read.chunk.bytes read.input) = received view ++ read.chunk.bytes := by
    rw [received_read, received_records, List.append_nil]
  constructor
  · rw [Globals.advance_firstPacket, grown, eq_comm, List.isEmpty_eq_false_iff]
    exact nonempty
  · intro _
    rw [Globals.advance_bytesTotal, ledger.firstPacket]
    by_cases first : received view = []
    · obtain ⟨rest, starts⟩ := opens first
      have fits := read.chunk.fits
      rw [starts] at fits ⊢
      rw [header_announcement ident total rest fits, first]
      rfl
    · rw [ledger.bytesTotal first]
      simp [first]
  · rw [Globals.advance_bytesRead, ledger.bytesRead, ← Int32.ofNat_add, grown,
      List.length_append]
  · refine ledger.earned.quiet fun fd member => ?_
    rcases List.mem_cons.mp member with impossible | recorded
    · cases impossible
    · obtain ⟨id, count, impossible⟩ := Globals.mem_records recorded
      cases impossible

/-- The done message after it. -/
theorem Ledger.done (small : total.toNat < 2 ^ 31) (ledger : Ledger total view g)
    (nonempty : received view ≠ []) (completes : g.completes = true) (fd : Int)
    (result : WriteResult) : Ledger total (view ++ doneCalls fd result) g := by
  have same : received (view ++ doneCalls fd result) = received view := by
    simp [received, doneCalls]
  have reached : total.toNat ≤ (received view).length := by
    apply total_le_of_completes total small
    rw [← ledger.bytesTotal nonempty, ← ledger.bytesRead]
    exact of_decide_eq_true completes
  constructor
  · rw [same]
    exact ledger.firstPacket
  · rw [same]
    exact ledger.bytesTotal
  · rw [same]
    exact ledger.bytesRead
  · refine ledger.earned.append fun before _ _ _ => ?_
    rw [received_append, List.length_append]
    omega

private theorem received_read_ne_nil (view : List Effect) (fd : Int) (read : Read)
    (more : List Effect) : received (view ++ .read fd read.chunk.bytes :: more) ≠ [] := by
  rw [received_read]
  apply List.append_ne_nil_of_right_ne_nil
  exact List.append_ne_nil_of_left_ne_nil (List.ne_nil_of_length_pos read.chunk.nonempty) _

private theorem Ledger.consumed (small : total.toNat < 2 ^ 31) (ledger : Ledger total view g)
    (fd : Int) (now : Int64)
    (opens : received view = [] → Opens ident total (reads.map (·.chunk.bytes))) :
    Ledger total (view ++ (consume fd now g reads).2.1) (consume fd now g reads).1 := by
  induction reads generalizing view g with
  | nil =>
    rw [consume, List.append_nil]
    exact ledger
  | cons read rest ih =>
    have next := ledger.read fd now read fun first => opens first _ rfl
    have taken := received_read_ne_nil view fd read (g.records now read.chunk.bytes read.input)
    rw [consume]
    dsimp only
    split
    · rename_i completes
      simpa using next.done small taken completes fd read.write
    · simpa using ih next fun first => absurd first taken

/-- What the client of this connection has seen so far. -/
def Server.viewOf (s : Server) (id : Nat) : List Effect := ((s.conns id).map Conn.view).getD []

/-- The process while it reads from no other connection. `rest` is what this one is still
offered. -/
structure Books (id : Nat) (ident total : UInt32) (rest : List Callback) (s : Server) : Prop where
  ledger : Ledger total (s.viewOf id) s.state.globals
  opens : received (s.viewOf id) = [] →
    (∀ conn, s.conns id = some conn → conn.live = true) → Opens ident total (pieces rest)

private theorem Books.other {id : Nat}
    (books : Books id ident total (callbacks id (event :: rest)) s)
    (silent : pieces (s.made event.id event) = [])
    (outcome : Server.Outcome listenfd s event next) (other : event.id ≠ id) :
    Books id ident total (callbacks id rest) next := by
  have same := outcome.frame other
  rw [Server.callbacks_cons_other other] at books
  constructor
  · rw [Server.viewOf, same, outcome.quiet silent]
    exact books.ledger
  · rw [Server.viewOf, same]
    exact books.opens

private theorem Books.called {id : Nat} (small : total.toNat < 2 ^ 31)
    (books : Books id ident total (callback :: rest) s) (known : s.conns id = some conn)
    (live : conn.live = true) (ran : Server.Called s id conn callback next) :
    Books id ident total rest next := by
  have ledger := books.ledger
  have opens := books.opens
  rw [Server.viewOf, known] at ledger opens
  have alive : ∀ other, some conn = some other → other.live = true := by
    intro other same
    cases same
    exact live
  have first : received conn.view = [] →
      Opens ident total (callback.reads.map (·.chunk.bytes)) := by
    intro nothing piece heads
    refine opens nothing alive piece ?_
    rw [pieces_cons, List.head?_append, heads]
    rfl
  have view : next.viewOf id = conn.view ++
      (consume conn.fd callback.now s.state.globals callback.reads).2.1 := by
    simp [Server.viewOf, ran.conns]
  constructor
  · rw [view, ran.globals]
    exact ledger.consumed small conn.fd callback.now first
  · rw [view]
    intro nothing _
    cases reads : callback.reads with
    | nil =>
      rw [pieces_cons, reads, List.map_nil, List.nil_append] at opens
      rw [reads, consume, List.append_nil] at nothing
      exact opens nothing alive
    | cons read more =>
      rw [reads, consume] at nothing
      split at nothing <;> exact absurd nothing (received_read_ne_nil conn.view conn.fd read _)

private theorem Books.self {id : Nat} (small : total.toNat < 2 ^ 31)
    (books : Books id ident total (callbacks id (event :: rest)) s)
    (outcome : Server.Outcome listenfd s event next) (mine : event.id = id) :
    Books id ident total (callbacks id rest) next := by
  cases outcome with
  | accepted who cfd created listening fresh unknown =>
    obtain rfl : who = id := mine
    have before : s.viewOf who = [] := by simp [Server.viewOf, unknown]
    have opens := books.opens (by rw [before]; rfl) (by simp [unknown])
    refine ⟨?_, fun _ _ => opens⟩
    have ledger := books.ledger
    rw [before] at ledger
    dsimp only [Server.viewOf]
    rw [Function.update_self]
    cases created <;> exact ledger
  | idle who callback conn known dead =>
    obtain rfl : who = id := mine
    refine ⟨books.ledger, fun _ alive => ?_⟩
    rw [alive conn known] at dead
    cases dead
  | called who callback conn known live _ ran =>
    obtain rfl : who = id := mine
    rw [callbacks, if_pos rfl] at books
    exact books.called small known live ran

private theorem books_run {id : Nat} (small : total.toNat < 2 ^ 31) (inv : s.Inv listenfd)
    (books : Books id ident total (callbacks id events) s)
    (others : ∀ other, other ≠ id → pieces (s.served listenfd other events) = [])
    (ran : run (Server.step listenfd) s events = some last) : Books id ident total [] last := by
  induction events generalizing s with
  | nil =>
    cases ran
    exact books
  | cons event rest ih =>
    obtain ⟨next, took, onward⟩ := run_cons.mp ran
    have outcome := Server.step_outcome inv took
    have later : ∀ other, other ≠ id → pieces (next.served listenfd other rest) = [] :=
      fun other different => (Server.served_quiet_cons took (others other different)).2
    by_cases mine : event.id = id
    · exact ih (outcome.inv inv) (books.self small outcome mine) later onward
    · have silent := (Server.served_quiet_cons took (others event.id mine)).1
      exact ih (outcome.inv inv) (books.other silent outcome mine) later onward

/-- Of a connection that nothing is read from there is nothing to see. -/
theorem silent_run {id : Nat} (inv : s.Inv listenfd)
    (nothing : pieces (s.served listenfd id events) = [])
    (unseen : s.viewOf id = []) (ran : run (Server.step listenfd) s events = some last) :
    last.viewOf id = [] := by
  induction events generalizing s with
  | nil =>
    cases ran
    exact unseen
  | cons event rest ih =>
    obtain ⟨next, took, onward⟩ := run_cons.mp ran
    have outcome := Server.step_outcome inv took
    obtain ⟨now, later⟩ := Server.served_quiet_cons took nothing
    refine ih (outcome.inv inv) later ?_ onward
    by_cases mine : event.id = id
    · cases outcome with
      | accepted who =>
        obtain rfl : who = id := mine
        simp [Server.viewOf]
      | idle => exact unseen
      | called who callback conn known live _ ran =>
        obtain rfl : who = id := mine
        rw [Server.made_live known live] at now
        have none := (reads_of_quiet now).1
        rw [Server.viewOf, known] at unseen
        rw [Server.viewOf, ran.conns, Function.update_self, none, consume, List.append_nil]
        exact unseen
    · rw [Server.viewOf, outcome.frame mine]
      exact unseen

/-- Of all the connections a process ever has, data is read from one, which announces a total
that is a positive `int`. Then no done message is sent before its connection's own total is in,
and every connection is shown, recorded and counted as it would be alone. -/
theorem sole_sender_isolated (listenfd : Int) (errno : Errno) (events : List Event) (s : Server)
    (ran : run (Server.step listenfd) (Server.start listenfd errno) events = some s)
    (headers : Nat → UInt32 × UInt32)
    (streams : ∀ id, Stream (headers id).1 (headers id).2 (callbacks id events))
    (sender : Nat) (others : ∀ id, id ≠ sender →
      pieces ((Server.start listenfd errno).served listenfd id events) = [])
    (small : (headers sender).2.toNat < 2 ^ 31)
    (id : Nat) (conn : Conn) (known : s.conns id = some conn) :
    Earned (headers id).2 conn.view ∧ Unaffected listenfd errno events id conn := by
  have begins := Server.start_inv listenfd errno
  have seen : s.viewOf id = conn.view := by simp [Server.viewOf, known]
  by_cases mine : id = sender
  · subst mine
    have opened : Books id (headers id).1 (headers id).2 (callbacks id events)
        (Server.start listenfd errno) := by
      refine ⟨⟨rfl, fun some => absurd rfl some, rfl, ?_⟩, fun _ _ => (streams id).opening⟩
      intro before fd after split
      exact absurd split (by simp [Server.viewOf, Server.start])
    have books := books_run small begins opened others ran
    exact ⟨seen ▸ books.ledger.earned, Server.unaffected (.inr others) (streams id) ran known⟩
  · have nothing := others id mine
    have unseen := silent_run begins nothing rfl ran
    rw [seen] at unseen
    refine ⟨?_, Server.unaffected (.inl nothing) (streams id) ran known⟩
    rw [unseen]
    intro before fd after split
    exact absurd split (by simp)

/-- A callback that reads an announcement and nothing else. -/
def greeting (ident total : UInt32) : Callback where
  now := 0
  reads := [⟨⟨announcement ident total, by simp, by simp [kBufferLen]⟩, 0, 0, .accepted 10⟩]
  stop := some EAGAIN

/-- Streams that have only been opened. -/
theorem stream_of_greetings {offered : List Callback}
    (greets : ∀ callback ∈ offered, callback.reads = [] ∨ callback = greeting ident total)
    (waits : ∀ callback ∈ offered, callback.stop = some EAGAIN) : Stream ident total offered := by
  constructor
  · intro first heads
    obtain ⟨callback, member, held⟩ := List.mem_flatMap.mp (List.mem_of_head? heads)
    rcases greets callback member with nothing | rfl
    · simp [nothing] at held
    · exact ⟨[], by simpa [greeting] using held⟩
  · intro before callback after split ended
    have waited := waits callback (by simp [split])
    rw [waited] at ended
    cases ended

/-- One client sends its eight bytes while another is connected and silent. What a third one
sends, for which `aeCreateFileEvent` failed, is never read. -/
def oneSender : List Event :=
  [.acceptTcpHandler 0 5 true, .acceptTcpHandler 1 6 true, .acceptTcpHandler 2 7 false,
    .readFromClient 0 (greeting 1 8), .readFromClient 1 ⟨0, [], some EAGAIN⟩,
    .readFromClient 2 (greeting 1 8)]

theorem oneSender_isolated :
    ∃ s conn, run (Server.step 3) (Server.start 3 0) oneSender = some s ∧
      s.conns 0 = some conn ∧ .sendReadDone 5 ∈ conn.view ∧ conn.counts = [8] ∧
      Earned 8 conn.view ∧ Unaffected 3 0 oneSender 0 conn := by
  have evaluated : ((run (Server.step 3) (Server.start 3 0) oneSender).bind fun s =>
      s.conns 0).any (fun conn => decide (.sendReadDone 5 ∈ conn.view ∧ conn.counts = [8])) =
        true := by
    decide +kernel
  obtain ⟨conn, found, told⟩ := Option.any_eq_true _ _ |>.mp evaluated
  obtain ⟨s, ran, known⟩ := Option.bind_eq_some_iff.mp found
  obtain ⟨done, counted⟩ := of_decide_eq_true told
  have offers : ∀ id, ∀ callback ∈ callbacks id oneSender,
      callback = greeting 1 8 ∨ callback = ⟨0, [], some EAGAIN⟩ := by
    intro id callback member
    simp only [oneSender, callbacks] at member
    grind
  have streams : ∀ id, Stream 1 8 (callbacks id oneSender) := fun id => by
    apply stream_of_greetings <;> intro callback member
    · exact (offers id callback member).symm.imp_left fun idle => by rw [idle]
    · rcases offers id callback member with rfl | rfl <;> rfl
  have others : ∀ id, id ≠ 0 →
      pieces ((Server.start 3 0).served 3 id oneSender) = [] := by
    intro id other
    by_cases known : id = 1 ∨ id = 2
    · rcases known with rfl | rfl <;> decide +kernel
    · have nothing : pieces (callbacks id oneSender) = [] := by
        simp only [oneSender, callbacks]
        split_ifs <;> simp_all [pieces]
      exact Server.served_of_nothing nothing _
  exact ⟨s, conn, ran, known, done, counted, sole_sender_isolated 3 0 oneSender s ran
    (fun _ => (1, 8)) streams 0 others (by decide) 0 conn known⟩

/-- Two clients announce sixteen and a hundred bytes and send eight each. -/
def twoSenders : List Event :=
  [.acceptTcpHandler 0 5 true, .acceptTcpHandler 1 6 true, .readFromClient 0 (greeting 1 16),
    .readFromClient 1 (greeting 2 100)]

/-- The second is told that its hundred bytes are done after eight, and the count after its read
is sixteen, neither of which would be so alone; and a client that announces 2^31 bytes is told
so whoever else is there. -/
theorem shared_variables_interfere :
    (∃ s conn, run (Server.step 3) (Server.start 3 0) twoSenders = some s ∧
      Stream 1 16 (callbacks 0 twoSenders) ∧ Stream 2 100 (callbacks 1 twoSenders) ∧
      s.conns 1 = some conn ∧ ¬ Earned 100 conn.view ∧ conn.counts = [16] ∧
      ¬ Unaffected 3 0 twoSenders 1 conn) ∧
    ∃ s conn, run (Server.step 3) (Server.start 3 0) [.acceptTcpHandler 0 5 true,
        .readFromClient 0 (greeting 1 2147483648)] = some s ∧
      s.conns 0 = some conn ∧ ¬ Earned 2147483648 conn.view := by
  have early : ∀ {total : UInt32} {fd : Int} {before rest : List Effect},
      (received before).length < total.toNat →
        ¬ Earned total (before ++ .sendReadDone fd :: rest) :=
    fun short earned => absurd (earned _ _ _ rfl) (Nat.not_le.mpr short)
  constructor
  · have evaluated : (run (Server.step 3) (Server.start 3 0) twoSenders).bind (fun s => s.conns 1) =
        some ⟨6, false, [.read 6 (announcement 2 100)] ++ doneCalls 6 (.accepted 10), [16]⟩ := by
      decide +kernel
    obtain ⟨s, ran, known⟩ := Option.bind_eq_some_iff.mp evaluated
    have single : (run (Server.step 3) (Server.start 3 0) (twoSenders.filter (·.id = 1))).bind
        (fun s => s.conns 1) =
          some ⟨6, true, [.read 6 (announcement 2 100), .onRecvData 2 0 0], [8]⟩ := by
      decide +kernel
    refine ⟨s, _, ran, ?_, ?_, known, early (by decide), rfl, ?_⟩
    · exact stream_of_greetings (by simp [twoSenders, callbacks]) (by
        simp [twoSenders, callbacks, greeting])
    · exact stream_of_greetings (by simp [twoSenders, callbacks]) (by
        simp [twoSenders, callbacks, greeting])
    · rintro ⟨alone, conn, ran', known', -, counts⟩
      rw [ran', Option.bind_some, known'] at single
      cases single
      cases counts
  · have evaluated : (run (Server.step 3) (Server.start 3 0) [.acceptTcpHandler 0 5 true,
        .readFromClient 0 (greeting 1 2147483648)]).bind (fun s => s.conns 0) =
        some ⟨5, false, [.read 5 (announcement 1 2147483648), .onRecvData 1 0 0] ++
          doneCalls 5 (.accepted 10), [8]⟩ := by
      decide +kernel
    obtain ⟨s, ran, known⟩ := Option.bind_eq_some_iff.mp evaluated
    exact ⟨s, _, ran, known, early (by decide)⟩

end TcpCongestion.Redis
