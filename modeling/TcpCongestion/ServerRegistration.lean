import TcpCongestion.Runs
import TcpCongestion.TcpServerProofs

/-! Whether the event loop's table and the server's peers stay in step. They do
as long as no connection ends: the callback that ends one takes the peer out of
the map and closes its descriptor, and leaves the table as it is. -/
namespace TcpCongestion.ServerRegistration
open Posix Runs TcpServer TcpServerProofs

/-- The map has a living peer for `fd` that holds `fd`. -/
def LivePeer (s : TcpServer) (fd : Int) (p : Nat) : Prop :=
  s.peers fd = some p ∧ status s p = some (true, fd)

/-- The table has a reader for a connection exactly if the map has a living peer
for it, and that reader is the peer. -/
def InStep (listenfd : Int) (s : TcpServer) : Prop :=
  ∀ fd, fd ≠ listenfd →
    ((s.evb.events fd).mask &&& AE_READABLE ≠ 0 ↔ ∃ p, LivePeer s fd p) ∧
    ∀ p, LivePeer s fd p → (s.evb.events fd).clientData = some (.peer p)

/-- A connection within range is registered and polled once it is accepted. -/
def Serves (s : TcpServer) (event : ServerEvent) : Prop :=
  ∀ fd next, event = .accept (.ok fd) → fd ≤ FD_SETSIZE → s.step event = some next →
    LivePeer next fd s.objects.length ∧ next.evb.fires fd = true ∧
      (next.evb.events fd).clientData = some (.peer s.objects.length)

/-- No turn of a callback that ends in `PeerClose` and `Close`. -/
def KeepsOpen (s : TcpServer) : ServerEvent → Prop
  | .readable _ _ input =>
    (∃ chunk, input.result = .data chunk) ∨ wouldBlock (input.result.errnoAfter s.errno) = true
  | _ => True

/-- A server whose table has no entry for a closed descriptor. -/
structure Clean (listenfd : Int) (s : TcpServer) : Prop where
  inv : ServerInv listenfd s
  current : ∀ fd, fd ≠ listenfd → (s.evb.events fd).mask ≠ AE_NONE → fd ∈ s.evb.interest

private theorem createSocket_clean (listenfd epfd : Int) (counter : Option PeerCouner) :
    Clean listenfd (createSocket listenfd epfd counter) where
  inv := createSocket_inv listenfd epfd counter
  current fd other known :=
    absurd ((createSocket_table listenfd epfd counter).2.2.2.1 fd other) known

private theorem readable_mask : AE_READABLE &&& AE_READABLE ≠ 0 := by decide

private theorem Clean.inStep (clean : Clean listenfd s) : InStep listenfd s := by
  intro fd other
  have live : ∀ p, LivePeer s fd p → Registered s fd p ∧ (s.evb.events fd).mask = AE_READABLE := by
    intro p ⟨mapped, _⟩
    have known := (clean.inv.mapped fd p mapped).2.1
    obtain ⟨_, mask, q, registered⟩ := clean.inv.served fd (clean.current fd other known) other
    have same := registered.mapped.symm.trans mapped
    rw [Option.some.injEq] at same
    exact ⟨same ▸ registered, mask⟩
  refine ⟨⟨fun readable => ?_, fun ⟨p, alive⟩ => ?_⟩, fun p alive => (live p alive).1.clientData⟩
  · have known : (s.evb.events fd).mask ≠ AE_NONE := by
      intro none
      rw [none] at readable
      exact readable (by decide)
    obtain ⟨_, _, p, registered⟩ := clean.inv.served fd (clean.current fd other known) other
    exact ⟨p, registered.mapped, registered.alive⟩
  · rw [(live p alive).2]
    exact readable_mask

/-- Steps that leave the table alone. -/
theorem Clean.sameTable (clean : Clean listenfd s) (inv : ServerInv listenfd next)
    (evb : next.evb = s.evb) : Clean listenfd next :=
  ⟨inv, by rw [evb]; exact clean.current⟩

/-- A new descriptor is not in the table. -/
theorem Clean.unknown (clean : Clean listenfd s) (natural : 0 ≤ fd) (unopened : fd ∉ s.opened) :
    (s.evb.events fd).mask = AE_NONE := by
  obtain ⟨_, other, idle⟩ := clean.inv.fresh natural unopened
  by_contra known
  exact idle (clean.current fd other known)

private theorem Clean.acceptNew (clean : Clean listenfd s)
    (inv : ServerInv listenfd (afterAccept s fd)) : Clean listenfd (afterAccept s fd) := by
  refine ⟨inv, fun connection client known => ?_⟩
  by_cases same : connection = fd
  · simp [same]
  · dsimp only at known
    rw [Function.update_of_ne same] at known
    exact List.mem_cons_of_mem _ (clean.current connection client known)

private theorem Clean.step (clean : Clean listenfd s) (keeps : KeepsOpen s event)
    (took : s.step event = some next) : Clean listenfd next := by
  have inv := clean.inv.step took
  cases clean.inv.moves took with
  | acceptNew natural unopened allowed unknown => exact clean.acceptNew inv
  | acceptStale natural unopened allowed known =>
    exact absurd (clean.unknown natural unopened) known
  | fatal positive client polled registered found other final =>
    rcases keeps with ⟨chunk, result⟩ | waits
    · exact absurd result (other chunk)
    · rw [final] at waits
      cases waits
  | timer => exact clean.sameTable inv clean.inv.deletePeerList.2
  | acceptFailed | acceptBeyond | data | waits | failedCall => exact clean.sameTable inv rfl

/-- The turn that ends a connection leaves its entry behind. -/
theorem Clean.broken (clean : Clean listenfd s) (ends : ¬ KeepsOpen s event)
    (took : s.step event = some next) : ¬ InStep listenfd next := by
  cases clean.inv.moves took with
  | data found result turn => exact absurd (.inl ⟨_, result⟩) ends
  | waits registered wait => exact absurd (.inr wait) ends
  | @fatal fd p object now input positive client polled registered found other final =>
    intro inStep
    have readable : ((afterFatal s fd p object
        (input.result.errnoAfter s.errno)).evb.events fd).mask &&& AE_READABLE ≠ 0 := by
      have mask := (clean.inv.served fd polled client).2.1
      show (s.evb.events fd).mask &&& AE_READABLE ≠ 0
      rw [mask]
      exact readable_mask
    obtain ⟨q, mapped, _⟩ := (inStep fd client).1.mp readable
    simp [afterFatal] at mapped
  | _ => exact absurd trivial ends

/-- The registrations stay in step, and every connection is served, in exactly
the runs in which no connection ends. -/
theorem registrations_in_step_iff (listenfd epfd : Int) (counter : Option PeerCouner)
    (events : List ServerEvent) (last : TcpServer)
    (ran : run TcpServer.step (createSocket listenfd epfd counter) events = some last) :
    (Always TcpServer.step (InStep listenfd) (createSocket listenfd epfd counter) events ∧
      Along TcpServer.step Serves (createSocket listenfd epfd counter) events) ↔
    Along TcpServer.step KeepsOpen (createSocket listenfd epfd counter) events := by
  have start := createSocket_clean listenfd epfd counter
  have inStep := always_iff_along (P := InStep listenfd) start (fun _ clean => clean.inStep)
    (fun _ _ _ clean keeps took => clean.step keeps took)
    (fun _ _ _ clean ends took => clean.broken ends took) ran
  refine ⟨fun held => inStep.mp held.1, fun keeps => ⟨inStep.mpr keeps, ?_⟩⟩
  intro before event part mid reached fd next accepts allowed took
  have clean := always_of_along start (fun _ _ _ clean keeps took => clean.step keeps took) keeps
    before ((List.prefix_append _ _).trans part) mid reached
  subst accepts
  cases clean.inv.moves took with
  | acceptNew natural unopened _ _ =>
    obtain ⟨after, registered, polled⟩ := clean.inv.acceptNew natural unopened rfl
    have other := (clean.inv.fresh natural unopened).2.1
    refine ⟨⟨registered.mapped, registered.alive⟩, ?_, registered.clientData⟩
    rw [EventLoop.fires_iff, (after.served fd polled other).2.1]
    exact ⟨polled, readable_mask⟩
  | acceptStale natural unopened _ known => exact absurd (clean.unknown natural unopened) known
  | acceptBeyond beyond => omega

/-- A connection that is accepted and sends one byte. -/
def oneByte : List ServerEvent :=
  [.accept (.ok 5), .readable 5 0 ⟨.data (.next 0 []), 0, 1, .accepted 14⟩]

theorem one_byte_in_step :
    Always TcpServer.step (InStep 3) (createSocket 3 4 none) oneByte := by
  obtain ⟨last, ran⟩ : ∃ last, run TcpServer.step (createSocket 3 4 none) oneByte = some last :=
    Option.isSome_iff_exists.mp (by decide +kernel)
  refine ((registrations_in_step_iff 3 4 none oneByte last ran).mpr ?_).1
  intro before event part mid _
  have member : event ∈ oneByte := part.subset (by simp)
  simp only [oneByte, List.mem_cons, List.not_mem_nil, or_false] at member
  rcases member with rfl | rfl
  · trivial
  · exact .inl ⟨_, rfl⟩

/-- A connection that ends, and another that is given its descriptor. -/
def reuse : List ServerEvent :=
  [.accept (.ok 5), .readable 5 0 ⟨.eof, 0, 0, .accepted 0⟩, .accept (.ok 5)]

/-- The second connection is closed by the server that accepted it, and the table
still names the first peer. -/
theorem reused_descriptor_refused :
    ∃ s, run TcpServer.step (createSocket 3 4 none) reuse = some s ∧
      s.peers 5 = some 1 ∧ status s 1 = some (true, 0) ∧ 5 ∉ s.opened ∧
      (s.evb.events 5).mask &&& AE_READABLE ≠ 0 ∧
      (s.evb.events 5).clientData = some (.peer 0) ∧ ¬ InStep 3 s := by
  have evaluated : (run TcpServer.step (createSocket 3 4 none) reuse).any (fun s =>
      decide (s.peers 5 = some 1 ∧ status s 1 = some (true, 0) ∧ 5 ∉ s.opened ∧
        (s.evb.events 5).mask = AE_READABLE ∧ (s.evb.events 5).clientData = some (.peer 0))) =
      true := by decide +kernel
  obtain ⟨s, ran, facts⟩ := Option.any_eq_true _ _ |>.mp evaluated
  obtain ⟨mapped, closed, unopened, mask, data⟩ := of_decide_eq_true facts
  have readable : (s.evb.events 5).mask &&& AE_READABLE ≠ 0 := by rw [mask]; exact readable_mask
  refine ⟨s, ran, mapped, closed, unopened, readable, data, fun inStep => ?_⟩
  obtain ⟨p, live, alive⟩ := (inStep 5 (by decide)).1.mp readable
  cases live.symm.trans mapped
  rw [closed] at alive
  simp at alive

end TcpCongestion.ServerRegistration
