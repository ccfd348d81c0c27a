import TcpCongestion.Runs
import TcpCongestion.TcpPeerProofs
import TcpCongestion.TcpServer

/-! What one event can do to a server. `Moves` lists it, event by event, for a
server that keeps its invariant, and `ServerInv.deletes` is the induction over the
peers that `DeletePeerList` destroys; the results about registrations, end of file,
timers and the counter are derived from the two. -/
namespace TcpCongestion.TcpServerProofs
open Posix Runs TcpPeerProofs TcpServer

/-! ## Performing a peer's calls -/

@[simp] theorem perform_objects (s : TcpServer) (effect : PeerEffect) :
    (s.perform effect).objects = s.objects := by
  cases effect with
  | peerClose fd => simp only [perform, peerClose]; split <;> rfl
  | _ => rfl

@[simp] theorem perform_all_objects (s : TcpServer) (effects : List PeerEffect) :
    (effects.foldl perform s).objects = s.objects := by
  induction effects generalizing s with
  | nil => rfl
  | cons effect rest ih => rw [List.foldl_cons, ih, perform_objects]

@[simp] theorem commit_objects (s : TcpServer) (p : Nat) (object : PeerObject) (after : PeerState) :
    (s.commit p object after).objects =
      s.objects.set p { object with peer := after.peer, effects := after.effects } :=
  perform_all_objects _ _

/-- Calls that stay inside the peer. -/
theorem perform_traces (traces : Traces effects) (s : TcpServer) : effects.foldl perform s = s := by
  induction effects with
  | nil => rfl
  | cons effect rest ih =>
    obtain ⟨_, _, _, rfl⟩ := traces effect List.mem_cons_self
    exact ih fun other member => traces other (List.mem_cons_of_mem _ member)

private theorem perform_doneCalls (calls : DoneCalls effects) (s : TcpServer) :
    effects.foldl perform s = s.onPeerReadDoneMsg := by
  obtain ⟨written, rfl, rfl | ⟨bytes, _, _, rfl⟩⟩ := calls <;> rfl

/-- The read that makes the count reach the total for the first time. -/
def Completes (before : TcpPeer) (after : TcpPeer) : Prop :=
  before.sendReadDone = false ∧ after.totalByte ≤ after.recvByte

instance (before after : TcpPeer) : Decidable (Completes before after) :=
  inferInstanceAs (Decidable (_ ∧ _))

/-- The server after a turn of peer `p` that consumed data. -/
abbrev afterData (s : TcpServer) (p : Nat) (object : PeerObject) (after : PeerState) : TcpServer :=
  { s with
    objects := s.objects.set p { object with peer := after.peer, effects := after.effects }
    errno := after.errno
    counter := if Completes object.peer after.peer then s.counter.map Couner.decrease
      else s.counter }

/-- A turn that consumed data reaches the server through its counter alone. -/
theorem commit_data (s : TcpServer) (p : Nat) (object : PeerObject)
    (turn : DataTurn (s.stateOf object) bytes input after) :
    s.commit p object after = afterData s p object after := by
  obtain ⟨traces, signal, effects, only, calls⟩ := turn.effects
  have added : after.effects.drop object.effects.length =
      .read bytes :: (traces ++ signal) := by
    rw [effects]
    exact List.drop_left
  rw [commit, added, List.foldl_cons, List.foldl_append, perform_traces only, afterData]
  by_cases complete : Completes object.peer after.peer
  · rw [if_pos complete]
    have done := (if_pos complete).mp calls
    rw [perform_doneCalls done]
    rfl
  · rw [if_neg complete]
    have none := (if_neg complete).mp calls
    rw [none]
    rfl

/-- A method that made no call. -/
theorem commit_silent (s : TcpServer) (p : Nat) (object : PeerObject) (after : PeerState)
    (silent : after.effects = object.effects) :
    s.commit p object after = { s with
      objects := s.objects.set p { object with peer := after.peer }
      errno := after.errno } := by
  rw [commit, silent, List.drop_length]
  rfl

/-- The peer as `Close` leaves it. -/
def shut (object : PeerObject) (calls : List PeerEffect) : PeerObject :=
  { object with
    peer := { object.peer with sockfd := 0, tracRecv := false }
    effects := object.effects ++ calls }

/-- `Close` on an open socket. -/
theorem commit_close (s : TcpServer) (p : Nat) (object : PeerObject)
    (isOpen : 0 < object.peer.sockfd) :
    s.commit p object (s.stateOf object).close =
      { s with objects := s.objects.set p (shut object [.close object.peer.sockfd])
        }.closeDescriptor object.peer.sockfd := by
  rw [close_open (s.stateOf object) isOpen, commit]
  simp only [stateOf, List.drop_left]
  rfl

/-- A fatal end of the read loop on an open socket: `PeerClose`, then `close`. -/
theorem commit_fatal (s : TcpServer) (p : Nat) (object : PeerObject) (errno : Errno)
    (isOpen : 0 < object.peer.sockfd) (fatal : wouldBlock errno = false) :
    s.commit p object { s.stateOf object with errno }.onReadEnd =
      ({ s with
        objects := s.objects.set p
          (shut object [.peerClose object.peer.sockfd, .close object.peer.sockfd])
        errno := errno }.peerClose object.peer.sockfd).closeDescriptor object.peer.sockfd := by
  rw [(onReadEnd_spec _).2 fatal, close_open _ isOpen, commit]
  simp only [PeerState.emit, stateOf, List.append_assoc, List.drop_left]
  rfl

/-- A peer after its destructor found it closed already. -/
def retired (object : PeerObject) : PeerObject :=
  { object with peer := { object.peer with tracRecv := false }, alive := false }

private theorem destroy_idle (s : TcpServer) (p : Nat) (found : s.objects[p]? = some object)
    (idle : object.peer.sockfd ≤ 0) :
    s.destroy p = { s with objects := s.objects.set p (retired object) } := by
  rw [destroy, found]
  simp only [close_idle (s.stateOf object) idle]
  rw [commit_silent _ _ _ _ rfl]
  rfl

/-! ## Accepting -/

private theorem filter_absent {fds : List Int} (absent : fd ∉ fds) : fds.filter (· ≠ fd) = fds := by
  apply List.filter_eq_self.mpr
  intro other member
  simpa using fun same : other = fd => absent (same ▸ member)

private theorem filter_absent_cons {fds : List Int} (absent : fd ∉ fds) :
    (fd :: fds).filter (· ≠ fd) = fds := by
  rw [List.filter_cons_of_neg (by simp), filter_absent absent]

private theorem modify_last (objects : List α) (last : α) (f : α → α) :
    (objects ++ [last]).modify objects.length f = objects ++ [f last] := by
  induction objects with
  | nil => rfl
  | cons object rest ih => simpa using ih

/-- A peer as `Accept` leaves it when it is registered. -/
def accepted (fd : Int) : PeerObject where
  peer := { sockfd := fd, tracRecv := true }
  effects := []
  alive := true

/-- A peer whose registration failed: closed by its own constructor. -/
def refused (fd : Int) (kept : Bool) : PeerObject where
  peer := { sockfd := 0, tracRecv := kept }
  effects := [.close fd]
  alive := kept

/-- The server after it registered a new peer. -/
abbrev afterAccept (s : TcpServer) (fd : Int) : TcpServer :=
  { s with
    opened := fd :: s.opened
    evb := { s.evb with
      interest := fd :: s.evb.interest
      events := Function.update s.evb.events fd ⟨AE_READABLE, some (.peer s.objects.length)⟩ }
    objects := s.objects ++ [accepted fd]
    peers := Function.update s.peers fd (some s.objects.length) }

/-- The server after the registration failed; the map gains the closed peer unless an
older one is in its place. -/
abbrev afterRefusal (s : TcpServer) (fd : Int) : TcpServer :=
  { s with
    errno := ENOENT
    objects := s.objects ++ [refused fd (s.peers fd).isNone]
    peers := if (s.peers fd).isNone then Function.update s.peers fd (some s.objects.length)
      else s.peers }

/-- A descriptor the table does not know. -/
theorem accept_new (s : TcpServer) (fd : Int) (allowed : fd ≤ FD_SETSIZE)
    (size : s.evb.setsize = 10240) (unknown : (s.evb.events fd).mask = AE_NONE)
    (idle : fd ∉ s.evb.interest) (unmapped : s.peers fd = none) :
    s.accept (.ok fd) = afterAccept s fd := by
  have small : fd < s.evb.setsize := by rw [size]; rw [FD_SETSIZE] at allowed; omega
  have created := s.evb.aeCreateFileEvent_new fd AE_READABLE (.peer s.objects.length) small
    unknown idle
  have inRange : ¬ fd > FD_SETSIZE := by omega
  simp only [accept, if_neg inRange, newPeer, created, setTraceRecvFun, insertPeer, unmapped,
    modify_last]
  rfl

/-- A descriptor the table still knows from a connection that is gone. -/
theorem accept_stale (s : TcpServer) (fd : Int) (allowed : fd ≤ FD_SETSIZE) (positive : 0 < fd)
    (size : s.evb.setsize = 10240) (known : (s.evb.events fd).mask ≠ AE_NONE)
    (idle : fd ∉ s.evb.interest) (fresh : fd ∉ s.opened) :
    s.accept (.ok fd) = afterRefusal s fd := by
  have small : fd < s.evb.setsize := by rw [size]; rw [FD_SETSIZE] at allowed; omega
  have failed := s.evb.aeCreateFileEvent_stale fd AE_READABLE (.peer s.objects.length) small
    known idle
  have inRange : ¬ fd > FD_SETSIZE := by omega
  have constructed : { s with opened := fd :: s.opened }.newPeer fd = { s with
      errno := ENOENT
      objects := s.objects ++ [{ refused fd true with peer := { sockfd := 0 } }] } := by
    simp only [newPeer, failed]
    rw [commit_close _ _ _ positive]
    simp only [closeDescriptor, EventLoop.closed, filter_absent idle, filter_absent_cons fresh,
      List.set_append_right, Nat.le_refl, Nat.sub_self]
    rfl
  simp only [accept, if_neg inRange, constructed, setTraceRecvFun, modify_last, insertPeer,
    afterRefusal]
  cases s.peers fd with
  | none => rfl
  | some _ =>
    rw [destroy_idle _ _ (List.getElem?_concat_length) (Int.le_refl 0)]
    simp only [List.set_append_right, Nat.le_refl, Nat.sub_self]
    rfl

/-- A descriptor out of range is left open and otherwise ignored. -/
theorem accept_beyond (s : TcpServer) (fd : Int) (beyond : FD_SETSIZE < fd) :
    s.accept (.ok fd) = { s with opened := fd :: s.opened } := by
  simp only [accept]
  rw [if_pos beyond]

/-! ## Reading -/

/-- A read that has to wait leaves nothing but `errno`. -/
theorem commit_waits (s : TcpServer) (p : Nat) (object : PeerObject) (errno : Errno)
    (found : s.objects[p]? = some object) (waits : wouldBlock errno = true) :
    s.commit p object { s.stateOf object with errno }.onReadEnd = { s with errno } := by
  obtain ⟨inside, same⟩ := List.getElem?_eq_some_iff.mp found
  have unchanged : s.objects.set p object = s.objects := by
    rw [← same]
    exact List.set_getElem_self inside
  rw [(onReadEnd_spec _).1 waits, commit_silent _ _ _ _ rfl]
  simp only [stateOf, unchanged]

/-- A callback takes a turn of the peer it was registered for. -/
theorem readable_turn (took : TcpServer.readable s fd now input = some next) :
    ∃ p object after again, s.evb.fires fd = true ∧ (s.evb.events fd).clientData = some (.peer p) ∧
      s.objects[p]? = some object ∧ (s.stateOf object).turn now input = some (after, again) ∧
      next = s.commit p object after := by
  unfold TcpServer.readable at took
  split at took
  · rename_i fires
    split at took
    · rename_i p data
      split at took
      · rename_i object found
        split at took
        · obtain ⟨⟨after, again⟩, turned, rfl⟩ := Option.map_eq_some_iff.mp took
          exact ⟨p, object, after, again, fires, data, found, turned, rfl⟩
        · cases took
      · cases took
    · cases took
  · cases took

/-! ## The peers a server answers for -/

/-- Whether peer `p` is alive, and the descriptor it holds. -/
def status (s : TcpServer) (p : Nat) : Option (Bool × Int) :=
  s.objects[p]?.map fun object => (object.alive, object.peer.sockfd)

private theorem status_of {s : TcpServer} (found : s.objects[p]? = some object) :
    status s p = some (object.alive, object.peer.sockfd) := by
  rw [status, found]
  rfl

/-- Replacing a peer by one with the same status. -/
theorem status_set_same {s next : TcpServer} (found : s.objects[p]? = some object)
    (objects : next.objects = s.objects.set p changed) (alive : changed.alive = object.alive)
    (sockfd : changed.peer.sockfd = object.peer.sockfd) : status next = status s := by
  funext q
  rw [status, status, objects, List.getElem?_set]
  split
  · rename_i same
    subst same
    obtain ⟨inside, _⟩ := List.getElem?_eq_some_iff.mp found
    rw [if_pos inside, found]
    simp [alive, sockfd]
  · rfl

private theorem status_set_other {s next : TcpServer}
    (objects : next.objects = s.objects.set p changed)
    (other : q ≠ p) : status next q = status s q := by
  rw [status, status, objects, List.getElem?_set_ne (Ne.symm other)]

private theorem status_append {s next : TcpServer} (objects : next.objects = s.objects ++ [added])
    (found : status s q = some known) : status next q = some known := by
  rw [status] at found
  obtain ⟨object, position, shape⟩ := Option.map_eq_some_iff.mp found
  obtain ⟨inside, _⟩ := List.getElem?_eq_some_iff.mp position
  rw [status, objects, List.getElem?_append_left inside, position, Option.map_some, shape]

private theorem status_appended {s next : TcpServer}
    (objects : next.objects = s.objects ++ [added]) :
    status next s.objects.length = some (added.alive, added.peer.sockfd) := by
  rw [status, objects, List.getElem?_concat_length]
  rfl

/-- A descriptor on which the table, the peer and the map agree. -/
structure Registered (s : TcpServer) (fd : Int) (p : Nat) : Prop where
  clientData : (s.evb.events fd).clientData = some (.peer p)
  alive : status s p = some (true, fd)
  mapped : s.peers fd = some p

/-- What holds of a server in every state it reaches: a descriptor the kernel
polls is that of a registered, living peer, or the listener's. Descriptors that
were closed may still be in the table. -/
structure ServerInv (listenfd : Int) (s : TcpServer) : Prop where
  setsize : s.evb.setsize = 10240
  stdin : 0 ∈ s.opened
  listener : listenfd ∈ s.opened
  listenerData : ∀ p, (s.evb.events listenfd).clientData ≠ some (.peer p)
  polled : ∀ fd ∈ s.evb.interest, fd ∈ s.opened
  masks : ∀ fd, (s.evb.events fd).mask = AE_NONE ∨ (s.evb.events fd).mask = AE_READABLE
  served : ∀ fd ∈ s.evb.interest, fd ≠ listenfd → 0 < fd ∧
    (s.evb.events fd).mask = AE_READABLE ∧ ∃ p, Registered s fd p
  mapped : ∀ fd p, s.peers fd = some p → fd ≠ listenfd ∧ (s.evb.events fd).mask ≠ AE_NONE ∧
    ∃ sockfd, status s p = some (true, sockfd)
  injective : ∀ fd other p, s.peers fd = some p → s.peers other = some p → fd = other
  waiting : ∀ p ∈ s.waitForDelele, (∃ alive sockfd, status s p = some (alive, sockfd) ∧ sockfd ≤ 0) ∧
    ∀ fd, s.peers fd ≠ some p

/-- Steps that do not touch the table have only the peers and the map to answer for. -/
theorem ServerInv.sameTable (inv : ServerInv listenfd s) (evb : next.evb = s.evb)
    (opened : ∀ fd ∈ s.opened, fd ∈ next.opened)
    (registered : ∀ fd ∈ s.evb.interest, ∀ p, Registered s fd p →
      status next p = some (true, fd) ∧ next.peers fd = some p)
    (mapped : ∀ fd p, next.peers fd = some p → fd ≠ listenfd ∧
      (s.evb.events fd).mask ≠ AE_NONE ∧ ∃ sockfd, status next p = some (true, sockfd))
    (injective : ∀ fd other p, next.peers fd = some p → next.peers other = some p → fd = other)
    (waiting : ∀ p ∈ next.waitForDelele,
      (∃ alive sockfd, status next p = some (alive, sockfd) ∧ sockfd ≤ 0) ∧
        ∀ fd, next.peers fd ≠ some p) : ServerInv listenfd next := by
  refine ⟨?_, opened _ inv.stdin, opened _ inv.listener, ?_, ?_, ?_, ?_, ?_, injective, waiting⟩
  · rw [evb]; exact inv.setsize
  · rw [evb]; exact inv.listenerData
  · rw [evb]; exact fun fd member => opened fd (inv.polled fd member)
  · rw [evb]; exact inv.masks
  · rw [evb]
    intro fd member client
    obtain ⟨positive, mask, p, known⟩ := inv.served fd member client
    obtain ⟨alive, found⟩ := registered fd member p known
    exact ⟨positive, mask, p, by rw [evb]; exact known.clientData, alive, found⟩
  · rw [evb]; exact mapped

/-- Steps that touch neither the table nor the map nor any peer's status. -/
theorem ServerInv.frame (inv : ServerInv listenfd s) (evb : next.evb = s.evb)
    (same : status next = status s) (peers : next.peers = s.peers)
    (waiting : next.waitForDelele = s.waitForDelele)
    (opened : ∀ fd ∈ s.opened, fd ∈ next.opened) : ServerInv listenfd next := by
  refine inv.sameTable evb opened (fun fd _ p known => ?_) ?_ ?_ ?_
  · rw [same, peers]; exact ⟨known.alive, known.mapped⟩
  · rw [same, peers]; exact inv.mapped
  · rw [peers]; exact inv.injective
  · rw [waiting, same, peers]; exact inv.waiting

private theorem status_unused (s : TcpServer) : status s s.objects.length = none := by
  rw [status, List.getElem?_eq_none (Nat.le_refl _)]
  rfl

/-- A descriptor from `accept` is positive, not the listener's and not polled. -/
theorem ServerInv.fresh (inv : ServerInv listenfd s) (natural : 0 ≤ fd) (unopened : fd ∉ s.opened) :
    0 < fd ∧ fd ≠ listenfd ∧ fd ∉ s.evb.interest := by
  refine ⟨?_, fun same => unopened (same ▸ inv.listener), fun member =>
    unopened (inv.polled fd member)⟩
  have nonzero : fd ≠ 0 := fun zero => unopened (zero ▸ inv.stdin)
  omega

/-- What the table does not know, the map does not have. -/
theorem ServerInv.unmapped (inv : ServerInv listenfd s)
    (unknown : (s.evb.events fd).mask = AE_NONE) : s.peers fd = none := by
  cases mapped : s.peers fd with
  | none => rfl
  | some p => exact absurd unknown (inv.mapped fd p mapped).2.1

private theorem ServerInv.mapped_used (inv : ServerInv listenfd s) (mapped : s.peers fd = some p) :
    p ≠ s.objects.length := by
  intro same
  obtain ⟨_, _, _, known⟩ := inv.mapped fd p mapped
  rw [same, status_unused] at known
  cases known

private theorem ServerInv.waiting_used (inv : ServerInv listenfd s) (waits : p ∈ s.waitForDelele) :
    p ≠ s.objects.length := by
  intro same
  obtain ⟨⟨_, _, known, _⟩, _⟩ := inv.waiting p waits
  rw [same, status_unused] at known
  cases known

/-- Mapping a descriptor to the next new peer keeps the map one to one, and away
from the peers that wait for deletion. -/
theorem ServerInv.insert_injective (inv : ServerInv listenfd s) (fd one two : Int) (p : Nat)
    (first : Function.update s.peers fd (some s.objects.length) one = some p)
    (second : Function.update s.peers fd (some s.objects.length) two = some p) : one = two := by
  by_cases atOne : one = fd <;> by_cases atTwo : two = fd
  · rw [atOne, atTwo]
  · rw [atOne, Function.update_self, Option.some.injEq] at first
    rw [Function.update_of_ne atTwo] at second
    exact absurd first.symm (inv.mapped_used second)
  · rw [atTwo, Function.update_self, Option.some.injEq] at second
    rw [Function.update_of_ne atOne] at first
    exact absurd second.symm (inv.mapped_used first)
  · rw [Function.update_of_ne atOne] at first
    rw [Function.update_of_ne atTwo] at second
    exact inv.injective one two p first second

private theorem ServerInv.insert_waiting (inv : ServerInv listenfd s) (fd : Int)
    (waits : p ∈ s.waitForDelele) (other : Int) :
    Function.update s.peers fd (some s.objects.length) other ≠ some p := by
  by_cases same : other = fd
  · rw [same, Function.update_self, ne_eq, Option.some.injEq]
    exact fun equal => inv.waiting_used waits equal.symm
  · rw [Function.update_of_ne same]
    exact (inv.waiting p waits).2 other

theorem ServerInv.acceptNew (inv : ServerInv listenfd s) (natural : 0 ≤ fd)
    (unopened : fd ∉ s.opened) (accepts : next = afterAccept s fd) :
    ServerInv listenfd next ∧ Registered next fd s.objects.length ∧ fd ∈ next.evb.interest := by
  obtain ⟨positive, connection, idle⟩ := inv.fresh natural unopened
  have objects : next.objects = s.objects ++ [accepted fd] := by rw [accepts]
  have registered : Registered next fd s.objects.length := by
    refine ⟨?_, status_appended objects, ?_⟩ <;> rw [accepts] <;> simp
  have others : ∀ other, other ≠ fd → next.evb.events other = s.evb.events other ∧
      next.peers other = s.peers other := by
    intro other different
    rw [accepts]
    exact ⟨Function.update_of_ne different _ _, Function.update_of_ne different _ _⟩
  have size : next.evb.setsize = s.evb.setsize := by rw [accepts]
  have interest : next.evb.interest = fd :: s.evb.interest := by rw [accepts]
  have opened : next.opened = fd :: s.opened := by rw [accepts]
  have waiting : next.waitForDelele = s.waitForDelele := by rw [accepts]
  have mask : (next.evb.events fd).mask = AE_READABLE := by rw [accepts]; simp
  refine ⟨⟨?_, ?_, ?_, ?_, ?_, ?_, ?_, ?_, ?_, ?_⟩, registered, by simp [interest]⟩
  · rw [size]; exact inv.setsize
  · rw [opened]; exact List.mem_cons_of_mem _ inv.stdin
  · rw [opened]; exact List.mem_cons_of_mem _ inv.listener
  · rw [(others listenfd (Ne.symm connection)).1]; exact inv.listenerData
  · intro other member
    rw [interest] at member
    rw [opened]
    rcases List.mem_cons.mp member with rfl | member
    · exact List.mem_cons_self
    · exact List.mem_cons_of_mem _ (inv.polled other member)
  · intro other
    by_cases same : other = fd
    · rw [same]; exact .inr mask
    · rw [(others other same).1]; exact inv.masks other
  · intro other member client
    rw [interest] at member
    by_cases same : other = fd
    · subst same
      exact ⟨positive, mask, _, registered⟩
    · have old := (List.mem_cons.mp member).resolve_left same
      obtain ⟨above, readable, p, known⟩ := inv.served other old client
      obtain ⟨events, peers⟩ := others other same
      refine ⟨above, by rw [events]; exact readable, p, ?_, ?_, ?_⟩
      · rw [events]; exact known.clientData
      · exact status_append objects known.alive
      · rw [peers]; exact known.mapped
  · intro other p mapped
    by_cases same : other = fd
    · subst same
      rw [registered.mapped] at mapped
      cases mapped
      exact ⟨connection, by rw [mask]; decide, other, registered.alive⟩
    · obtain ⟨events, peers⟩ := others other same
      rw [peers] at mapped
      obtain ⟨client, known, sockfd, alive⟩ := inv.mapped other p mapped
      exact ⟨client, by rw [events]; exact known, sockfd, status_append objects alive⟩
  · intro one two p
    rw [show next.peers = _ by rw [accepts]]
    exact inv.insert_injective fd one two p
  · intro p waits
    rw [waiting] at waits
    obtain ⟨alive, sockfd, known, idle⟩ := (inv.waiting p waits).1
    refine ⟨⟨alive, sockfd, status_append objects known, idle⟩, ?_⟩
    rw [show next.peers = _ by rw [accepts]]
    exact inv.insert_waiting fd waits

private theorem ServerInv.acceptStale (inv : ServerInv listenfd s) (natural : 0 ≤ fd)
    (unopened : fd ∉ s.opened) (known : (s.evb.events fd).mask ≠ AE_NONE)
    (accepts : next = afterRefusal s fd) : ServerInv listenfd next := by
  obtain ⟨_, connection, idle⟩ := inv.fresh natural unopened
  have objects : next.objects = s.objects ++ [refused fd (s.peers fd).isNone] := by rw [accepts]
  have evb : next.evb = s.evb := by rw [accepts]
  have opened : next.opened = s.opened := by rw [accepts]
  have waiting : next.waitForDelele = s.waitForDelele := by rw [accepts]
  have peers : (s.peers fd = none ∧
        next.peers = Function.update s.peers fd (some s.objects.length)) ∨
      next.peers = s.peers := by
    rw [accepts, afterRefusal]
    cases s.peers fd with
    | none => exact .inl ⟨rfl, rfl⟩
    | some _ => exact .inr rfl
  have others : ∀ other, other ≠ fd → next.peers other = s.peers other := by
    intro other different
    rcases peers with ⟨_, inserted⟩ | same
    · rw [inserted, Function.update_of_ne different]
    · rw [same]
  refine inv.sameTable evb (fun _ member => opened ▸ member) ?_ ?_ ?_ ?_
  · intro other member p registered
    have different : other ≠ fd := fun same => idle (same ▸ member)
    rw [others other different]
    exact ⟨status_append objects registered.alive, registered.mapped⟩
  · intro other p mapped
    rcases peers with ⟨unmapped, inserted⟩ | same
    · by_cases here : other = fd
      · subst here
        rw [inserted, Function.update_self, Option.some.injEq] at mapped
        refine ⟨connection, known, 0, ?_⟩
        rw [← mapped, status_appended objects, unmapped]
        rfl
      · rw [others other here] at mapped
        obtain ⟨client, mask, sockfd, alive⟩ := inv.mapped other p mapped
        exact ⟨client, mask, sockfd, status_append objects alive⟩
    · rw [same] at mapped
      obtain ⟨client, mask, sockfd, alive⟩ := inv.mapped other p mapped
      exact ⟨client, mask, sockfd, status_append objects alive⟩
  · rcases peers with ⟨_, inserted⟩ | same
    · rw [inserted]; exact inv.insert_injective fd
    · rw [same]; exact inv.injective
  · intro p waits
    rw [waiting] at waits
    obtain ⟨⟨alive, sockfd, before, idle⟩, unmapped⟩ := inv.waiting p waits
    refine ⟨⟨alive, sockfd, status_append objects before, idle⟩, ?_⟩
    rcases peers with ⟨_, inserted⟩ | same
    · rw [inserted]; exact inv.insert_waiting fd waits
    · rw [same]; exact unmapped

/-- A callback of a peer is on its own descriptor. -/
theorem ServerInv.fires_registered (inv : ServerInv listenfd s) (fires : s.evb.fires fd = true)
    (data : (s.evb.events fd).clientData = some (.peer p)) :
    0 < fd ∧ fd ≠ listenfd ∧ fd ∈ s.evb.interest ∧ Registered s fd p := by
  have polled := ((s.evb.fires_iff fd).mp fires).1
  have client : fd ≠ listenfd := fun same => inv.listenerData p (same ▸ data)
  obtain ⟨positive, _, owner, registered⟩ := inv.served fd polled client
  have same := registered.clientData.symm.trans data
  rw [Option.some.injEq, Handler.peer.injEq] at same
  exact ⟨positive, client, polled, same ▸ registered⟩

theorem Registered.sockfd (registered : Registered s fd p) (found : s.objects[p]? = some object) :
    object.peer.sockfd = fd := by
  have known := registered.alive
  rw [status_of found, Option.some.injEq, Prod.mk.injEq] at known
  exact known.2

/-- The server after a registered peer's callback ended in `PeerClose` and `Close`. -/
def afterFatal (s : TcpServer) (fd : Int) (p : Nat) (object : PeerObject) (errno : Errno) :
    TcpServer :=
  { s with
    objects := s.objects.set p (shut object [.peerClose fd, .close fd])
    errno := errno
    waitForDelele := s.waitForDelele ++ [p]
    peers := Function.update s.peers fd none
    evb := (s.evb.aeCreateTimeEvent ()).closed fd
    opened := s.opened.filter (· ≠ fd) }

private theorem commit_fatal_registered {errno : Errno} (registered : Registered s fd p)
    (found : s.objects[p]? = some object) (positive : 0 < fd) (fatal : wouldBlock errno = false) :
    s.commit p object { s.stateOf object with errno }.onReadEnd = afterFatal s fd p object errno := by
  have sockfd := registered.sockfd found
  rw [commit_fatal s p object errno (sockfd ▸ positive) fatal, sockfd]
  simp only [peerClose, registered.mapped]
  rfl

private theorem ServerInv.fatal {errno : Errno} (inv : ServerInv listenfd s)
    (registered : Registered s fd p)
    (found : s.objects[p]? = some object) (positive : 0 < fd) (client : fd ≠ listenfd) :
    ServerInv listenfd (afterFatal s fd p object errno) := by
  have objects : (afterFatal s fd p object errno).objects =
    s.objects.set p (shut object [.peerClose fd, .close fd]) := rfl
  have different : ∀ other q, other ≠ fd → s.peers other = some q → q ≠ p := by
    intro other q elsewhere mapped same
    exact elsewhere (inv.injective other fd p (same ▸ mapped) registered.mapped)
  have peers : ∀ other q, (afterFatal s fd p object errno).peers other = some q →
      other ≠ fd ∧ s.peers other = some q := by
    intro other q mapped
    by_cases same : other = fd
    · rw [same] at mapped
      simp [afterFatal] at mapped
    · exact ⟨same, by simpa [afterFatal, same] using mapped⟩
  refine ⟨inv.setsize, ?_, ?_, inv.listenerData, ?_, inv.masks, ?_, ?_, ?_, ?_⟩
  · exact List.mem_filter.mpr ⟨inv.stdin, by simpa using (Int.ne_of_lt positive)⟩
  · exact List.mem_filter.mpr ⟨inv.listener, by simpa using Ne.symm client⟩
  · intro other member
    obtain ⟨old, elsewhere⟩ := List.mem_filter.mp member
    exact List.mem_filter.mpr ⟨inv.polled other old, elsewhere⟩
  · intro other member connection
    obtain ⟨old, elsewhere⟩ := List.mem_filter.mp member
    have elsewhere : other ≠ fd := by simpa using elsewhere
    obtain ⟨above, readable, q, known⟩ := inv.served other old connection
    refine ⟨above, readable, q, known.clientData, ?_, ?_⟩
    · rw [status_set_other objects (different other q elsewhere known.mapped)]
      exact known.alive
    · simpa [afterFatal, elsewhere] using known.mapped
  · intro other q mapped
    obtain ⟨elsewhere, before⟩ := peers other q mapped
    obtain ⟨connection, mask, sockfd, alive⟩ := inv.mapped other q before
    refine ⟨connection, mask, sockfd, ?_⟩
    rw [status_set_other objects (different other q elsewhere before)]
    exact alive
  · intro one two q first second
    exact inv.injective one two q (peers one q first).2 (peers two q second).2
  · intro q waits
    rcases List.mem_append.mp waits with before | last
    · obtain ⟨⟨alive, sockfd, known, idle⟩, unmapped⟩ := inv.waiting q before
      have other : q ≠ p := fun same => unmapped fd (same ▸ registered.mapped)
      refine ⟨⟨alive, sockfd, ?_, idle⟩, fun fd mapped => unmapped fd (peers fd q mapped).2⟩
      rw [status_set_other objects other]
      exact known
    · obtain rfl := List.mem_singleton.mp last
      obtain ⟨inside, _⟩ := List.getElem?_eq_some_iff.mp found
      refine ⟨⟨object.alive, 0, ?_, Int.le_refl 0⟩, fun other mapped => ?_⟩
      · rw [status, objects, List.getElem?_set_self inside]
        rfl
      · obtain ⟨elsewhere, before⟩ := peers other q mapped
        exact different other q elsewhere before rfl

/-- A peer that waits for its deletion has closed its socket. -/
theorem ServerInv.waiting_closed (inv : ServerInv listenfd s) (waits : p ∈ s.waitForDelele) :
    ∃ object, s.objects[p]? = some object ∧ object.peer.sockfd ≤ 0 := by
  obtain ⟨⟨alive, sockfd, known, idle⟩, _⟩ := inv.waiting p waits
  obtain ⟨object, found, shape⟩ := Option.map_eq_some_iff.mp known
  rw [Prod.mk.injEq] at shape
  exact ⟨object, found, shape.2 ▸ idle⟩

/-- Deleting a peer that waits for it. -/
theorem ServerInv.destroyed (inv : ServerInv listenfd s) (waits : p ∈ s.waitForDelele)
    (found : s.objects[p]? = some object) (idle : object.peer.sockfd ≤ 0) :
    ServerInv listenfd { s with objects := s.objects.set p (retired object) } := by
  have unmapped := (inv.waiting p waits).2
  generalize deletes : { s with objects := s.objects.set p (retired object) } = next
  have objects : next.objects = s.objects.set p (retired object) := by rw [← deletes]
  have evb : next.evb = s.evb := by rw [← deletes]
  have peers : next.peers = s.peers := by rw [← deletes]
  have opened : next.opened = s.opened := by rw [← deletes]
  have waiting : next.waitForDelele = s.waitForDelele := by rw [← deletes]
  have different : ∀ fd q, s.peers fd = some q → q ≠ p :=
    fun fd q mapped same => unmapped fd (same ▸ mapped)
  refine inv.sameTable evb (fun _ member => opened ▸ member) ?_ ?_ ?_ ?_
  · intro fd member q registered
    rw [status_set_other objects (different fd q registered.mapped), peers]
    exact ⟨registered.alive, registered.mapped⟩
  · rw [peers]
    intro fd q mapped
    obtain ⟨client, mask, descriptor, alive⟩ := inv.mapped fd q mapped
    refine ⟨client, mask, descriptor, ?_⟩
    rw [status_set_other objects (different fd q mapped)]
    exact alive
  · rw [peers]; exact inv.injective
  · rw [waiting, peers]
    intro q member
    by_cases same : q = p
    · subst same
      obtain ⟨inside, _⟩ := List.getElem?_eq_some_iff.mp found
      refine ⟨⟨false, object.peer.sockfd, ?_, idle⟩, unmapped⟩
      rw [status, objects, List.getElem?_set_self inside]
      rfl
    · obtain ⟨⟨life, descriptor, before, low⟩, free⟩ := inv.waiting q member
      refine ⟨⟨life, descriptor, ?_, low⟩, free⟩
      rw [status_set_other objects same]
      exact before

/-- What deleting one closed peer keeps, deleting any of those that wait for it keeps. -/
theorem ServerInv.deletes {P : TcpServer → Prop} (inv : ServerInv listenfd s) (held : P s)
    (kept : ∀ mid p object, P mid → mid.objects[p]? = some object → object.peer.sockfd ≤ 0 →
      P { mid with objects := mid.objects.set p (retired object) })
    (ps : List Nat) (waits : ∀ p ∈ ps, p ∈ s.waitForDelele) :
    ServerInv listenfd (ps.foldl destroy s) ∧ P (ps.foldl destroy s) := by
  induction ps generalizing s with
  | nil => exact ⟨inv, held⟩
  | cons p rest ih =>
    have waiting := waits p List.mem_cons_self
    obtain ⟨object, found, idle⟩ := inv.waiting_closed waiting
    rw [List.foldl_cons, destroy_idle s p found idle]
    exact ih (inv.destroyed waiting found idle) (kept s p object held found idle)
      fun q member => waits q (List.mem_cons_of_mem _ member)

theorem ServerInv.deletePeerList (inv : ServerInv listenfd s) :
    ServerInv listenfd s.deletePeerList ∧ s.deletePeerList.evb = s.evb := by
  obtain ⟨held, evb⟩ := inv.deletes (P := fun mid => mid.evb = s.evb) rfl
    (fun _ _ _ same _ _ => same) s.waitForDelele fun _ member => member
  refine ⟨?_, evb⟩
  exact ⟨held.setsize, held.stdin, held.listener, held.listenerData, held.polled, held.masks,
    fun fd member client =>
      let ⟨above, readable, p, registered⟩ := held.served fd member client
      ⟨above, readable, p, registered.clientData, registered.alive, registered.mapped⟩,
    held.mapped, held.injective, by simp [TcpServer.deletePeerList]⟩

/-! ## One step -/

/-- All that the events of a server can do to it. -/
inductive Moves (listenfd : Int) (s : TcpServer) : ServerEvent → TcpServer → Prop
  | acceptFailed {errno : Errno} : Moves listenfd s (.accept (.error errno)) { s with errno }
  | acceptNew (natural : 0 ≤ fd) (unopened : fd ∉ s.opened) (allowed : fd ≤ FD_SETSIZE)
      (unknown : (s.evb.events fd).mask = AE_NONE) :
      Moves listenfd s (.accept (.ok fd)) (afterAccept s fd)
  | acceptStale (natural : 0 ≤ fd) (unopened : fd ∉ s.opened) (allowed : fd ≤ FD_SETSIZE)
      (known : (s.evb.events fd).mask ≠ AE_NONE) :
      Moves listenfd s (.accept (.ok fd)) (afterRefusal s fd)
  | acceptBeyond (beyond : FD_SETSIZE < fd) :
      Moves listenfd s (.accept (.ok fd)) { s with opened := fd :: s.opened }
  | data (found : s.objects[p]? = some object) (result : input.result = .data chunk)
      (turn : DataTurn (s.stateOf object) chunk.bytes input after) :
      Moves listenfd s (.readable fd now input) (afterData s p object after)
  | waits (registered : Registered s fd p)
      (wait : wouldBlock (input.result.errnoAfter s.errno) = true) :
      Moves listenfd s (.readable fd now input)
        { s with errno := input.result.errnoAfter s.errno }
  | fatal (positive : 0 < fd) (client : fd ≠ listenfd) (polled : fd ∈ s.evb.interest)
      (registered : Registered s fd p) (found : s.objects[p]? = some object)
      (other : ∀ chunk, input.result ≠ .data chunk)
      (final : wouldBlock (input.result.errnoAfter s.errno) = false) :
      Moves listenfd s (.readable fd now input)
        (afterFatal s fd p object (input.result.errnoAfter s.errno))
  | timer {id : Nat} : Moves listenfd s (.timer id) s.deletePeerList
  | failedCall {errno : Errno} : Moves listenfd s (.failedCall errno) { s with errno }

private theorem ServerInv.moves_accept (inv : ServerInv listenfd s) (natural : 0 ≤ fd)
    (unopened : fd ∉ s.opened) : Moves listenfd s (.accept (.ok fd)) (s.accept (.ok fd)) := by
  obtain ⟨positive, _, idle⟩ := inv.fresh natural unopened
  by_cases allowed : fd ≤ FD_SETSIZE
  · by_cases unknown : (s.evb.events fd).mask = AE_NONE
    · rw [accept_new s fd allowed inv.setsize unknown idle (inv.unmapped unknown)]
      exact .acceptNew natural unopened allowed unknown
    · rw [accept_stale s fd allowed positive inv.setsize unknown idle unopened]
      exact .acceptStale natural unopened allowed unknown
  · have beyond : FD_SETSIZE < fd := by omega
    rw [accept_beyond s fd beyond]
    exact .acceptBeyond beyond

private theorem ServerInv.moves_readable (inv : ServerInv listenfd s)
    (took : s.readable fd now input = some next) :
    Moves listenfd s (.readable fd now input) next := by
  obtain ⟨p, object, after, again, fires, data, found, turned, rfl⟩ := readable_turn took
  obtain ⟨positive, client, polled, registered⟩ := inv.fires_registered fires data
  rcases turn_spec turned with ⟨chunk, result, _, turn⟩ | ⟨other, _, rfl⟩
  · rw [commit_data s p object turn]
    exact .data found result turn
  · have errno : (s.stateOf object).errno = s.errno := rfl
    rw [errno]
    cases outcome : wouldBlock (input.result.errnoAfter s.errno) with
    | true =>
      rw [commit_waits s p object _ found outcome]
      exact .waits registered outcome
    | false =>
      rw [commit_fatal_registered registered found positive outcome]
      exact .fatal positive client polled registered found other outcome

theorem ServerInv.moves (inv : ServerInv listenfd s) (took : s.step event = some next) :
    Moves listenfd s event next := by
  cases event with
  | accept answer =>
    cases answer with
    | error errno =>
      cases took
      exact .acceptFailed
    | ok fd =>
      rw [TcpServer.step, Option.ite_none_right_eq_some] at took
      obtain ⟨⟨natural, unopened⟩, same⟩ := took
      cases same
      exact inv.moves_accept natural unopened
  | readable fd now input => exact inv.moves_readable took
  | timer id =>
    -- the callback does not return `AE_NOMORE`, so its event stays
    rw [TcpServer.step, Option.ite_none_right_eq_some] at took
    cases took.2
    exact .timer
  | failedCall errno =>
    cases took
    exact .failedCall

theorem ServerInv.step (inv : ServerInv listenfd s) (took : s.step event = some next) :
    ServerInv listenfd next := by
  cases inv.moves took with
  | acceptNew natural unopened allowed unknown => exact (inv.acceptNew natural unopened rfl).1
  | acceptStale natural unopened allowed known =>
    exact inv.acceptStale natural unopened known rfl
  | acceptBeyond beyond =>
    exact inv.frame rfl rfl rfl rfl fun _ member => List.mem_cons_of_mem _ member
  | data found result turn =>
    refine inv.frame rfl ?_ rfl rfl fun _ member => member
    exact status_set_same found rfl rfl turn.sockfd
  | fatal positive client polled registered found other final =>
    exact inv.fatal registered found positive client
  | timer => exact inv.deletePeerList.1
  | acceptFailed | waits | failedCall => exact inv.frame rfl rfl rfl rfl fun _ member => member

theorem ServerInv.run (inv : ServerInv listenfd s)
    (ran : run TcpServer.step s events = some next) : ServerInv listenfd next :=
  run_invariant inv (fun _ _ _ inv took => inv.step took) ran

/-- The table of a new server knows the listener alone. -/
theorem createSocket_table (listenfd epfd : Int) (counter : Option PeerCouner) :
    let evb := (createSocket listenfd epfd counter).evb
    evb.setsize = 10240 ∧ (∀ fd ∈ evb.interest, fd = listenfd) ∧
    (∀ fd p, (evb.events fd).clientData ≠ some (.peer p)) ∧
    (∀ fd, fd ≠ listenfd → (evb.events fd).mask = AE_NONE) ∧
    ((evb.events listenfd).mask = AE_NONE ∨ (evb.events listenfd).mask = AE_READABLE) := by
  by_cases small : listenfd < (EventLoop.aeCreateEventLoop (1024 * 10) :
      EventLoop Handler Unit).setsize
  · simp only [createSocket, EventLoop.aeCreateFileEvent_new _ listenfd AE_READABLE .acceptTcp small
      rfl (by simp [EventLoop.aeCreateEventLoop])]
    refine ⟨rfl, by simp [EventLoop.aeCreateEventLoop], ?_, ?_, .inr (by simp)⟩
    · intro fd p
      by_cases same : fd = listenfd <;> simp [same, EventLoop.aeCreateEventLoop]
    · intro fd other
      simp [other, EventLoop.aeCreateEventLoop]
  · have large : listenfd ≥ (EventLoop.aeCreateEventLoop (1024 * 10) :
      EventLoop Handler Unit).setsize := by omega
    simp only [createSocket, EventLoop.aeCreateFileEvent, if_pos large]
    exact ⟨rfl, by simp [EventLoop.aeCreateEventLoop], by simp [EventLoop.aeCreateEventLoop],
      by simp [EventLoop.aeCreateEventLoop], .inl rfl⟩

theorem createSocket_inv (listenfd epfd : Int) (counter : Option PeerCouner) :
    ServerInv listenfd (createSocket listenfd epfd counter) := by
  obtain ⟨size, interest, data, masks, listener⟩ := createSocket_table listenfd epfd counter
  refine ⟨size, by simp [createSocket], by simp [createSocket], data listenfd, ?_, ?_, ?_,
    by simp [createSocket], by simp [createSocket], by simp [createSocket]⟩
  · intro fd member
    rw [interest fd member]
    simp [createSocket]
  · intro fd
    by_cases same : fd = listenfd
    · rw [same]; exact listener
    · exact .inl (masks fd same)
  · intro fd member other
    exact absurd (interest fd member) other

end TcpCongestion.TcpServerProofs
