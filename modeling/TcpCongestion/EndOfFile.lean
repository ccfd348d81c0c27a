import TcpCongestion.Runs
import TcpCongestion.SenderStream
import TcpCongestion.TcpClientProofs
import TcpCongestion.TcpServerProofs

/-! What a `read` that returns 0 leads to. Both read loops look at `errno`
whatever `read` returned, and a count of 0 does not set it: the end of a stream
is noticed only if the last call that failed did so for another reason than
having to wait. -/
namespace TcpCongestion.EndOfFile
open Posix Runs SenderStream TcpServer TcpServerProofs

/-- The peer of `fd` has gone from the map to the list of those to be deleted,
and the descriptor is closed. -/
def PeerHandled (s : TcpServer) (fd : Int) (next : TcpServer) : Prop :=
  ∃ p, s.peers fd = some p ∧ next.peers fd = none ∧ p ∈ next.waitForDelele ∧ fd ∉ next.opened

/-- The client has closed the socket it had. -/
def ClientHandled (s next : ClientState) : Prop :=
  next.client.sockfd = 0 ∧ .close s.client.sockfd ∈ next.effects.drop s.effects.length

/-- What can happen to a client that is connected. The loop calls it back for
its open socket only. -/
inductive ClientEvent where
  | read (input : ClientInput)
  | write (call : WriteCall)
  | failedCall (errno : Errno)

def clientStep (s : ClientState) : ClientEvent → Option ClientState
  | .read input => if 0 < s.client.sockfd then some (s.turn input).1 else none
  | .write call => writeStep s call
  | .failedCall errno => some { s with errno }

/-- In a server that has kept its invariant, a count of 0 is handled unless
`errno` says to wait. -/
theorem peer_eof (inv : ServerInv listenfd s) (eof : input.result = .eof)
    (took : s.step (.readable fd now input) = some next) :
    PeerHandled s fd next ↔ wouldBlock s.errno = false := by
  have errno : input.result.errnoAfter s.errno = s.errno := by rw [eof]; rfl
  cases inv.moves took with
  | data found result turn =>
    rw [eof] at result
    cases result
  | waits registered wait =>
    rw [errno] at wait ⊢
    constructor
    · rintro ⟨_, _, gone, _⟩
      have gone : s.peers fd = none := gone
      cases gone.symm.trans registered.mapped
    · intro final
      rw [wait] at final
      cases final
  | fatal positive client polled registered found other final =>
    refine ⟨fun _ => errno ▸ final, fun _ => ⟨_, registered.mapped, ?_, ?_, ?_⟩⟩
    · simp [afterFatal]
    · simp [afterFatal]
    · simp [afterFatal]

/-- And so it is in an open client. -/
theorem client_eof (isOpen : 0 < s.client.sockfd) (eof : input.result = .eof) :
    ClientHandled s (s.turn input).1 ↔ wouldBlock s.errno = false := by
  rcases TcpClientProofs.turn_spec s input with ⟨chunk, result, _⟩ | ⟨_, ends⟩
  · rw [eof] at result
    cases result
  · rw [eof, ReadResult.errnoAfter] at ends
    cases waits : wouldBlock s.errno with
    | true =>
      rw [waits, if_pos rfl] at ends
      constructor
      · rintro ⟨shut, _⟩
        rw [ends.1] at shut
        omega
      · intro impossible
        cases impossible
    | false =>
      rw [waits, if_neg Bool.false_ne_true] at ends
      refine ⟨fun _ => rfl, fun _ => ⟨?_, ?_⟩⟩
      · rw [ends.1]
        exact if_pos isOpen
      · rw [ends.2, List.drop_left, TcpClientProofs.closeCalls, if_pos isOpen]
        simp

/-- In every state that a server reaches, and whatever a client's history, a
`read` that returns 0 is handled exactly if `errno` is not that of an earlier
call that had to wait. -/
theorem eof_handled_iff (listenfd epfd : Int) (counter : Option PeerCouner)
    (serverEvents : List ServerEvent) (server : TcpServer)
    (served : run TcpServer.step (createSocket listenfd epfd counter) serverEvents = some server)
    (client : ClientState) :
    (∀ (fd : Int) (now : Int32) (input : PeerInput) (next : TcpServer), input.result = .eof →
      server.step (.readable fd now input) = some next →
      (PeerHandled server fd next ↔ wouldBlock server.errno = false)) ∧
    (∀ (input : ClientInput) (next : ClientState), input.result = .eof →
      clientStep client (.read input) = some next →
      (ClientHandled client next ↔ wouldBlock client.errno = false)) := by
  constructor
  · intro fd now input next eof took
    exact peer_eof ((createSocket_inv listenfd epfd counter).run served) eof took
  · intro input next eof took
    rw [clientStep, Option.ite_none_right_eq_some] at took
    cases took.2
    exact client_eof took.1 eof

/-- A read of nothing, by a peer and by a client. -/
def peerEof : PeerInput := ⟨.eof, 0, 0, .accepted 0⟩
def clientEof : ClientInput := ⟨.eof, none⟩

theorem first_eof_handled :
    (∃ s next, run TcpServer.step (createSocket 3 4 none) [.accept (.ok 5)] = some s ∧
      s.step (.readable 5 0 peerEof) = some next ∧ PeerHandled s 5 next) ∧
    ∃ next, clientStep (sender 7 1400 5 0) (.read clientEof) = some next ∧
      ClientHandled (sender 7 1400 5 0) next := by
  have accepted : (run TcpServer.step (createSocket 3 4 none) [.accept (.ok 5)]).any (fun s =>
      decide (s.errno = 0) && (s.step (.readable 5 0 peerEof)).isSome) = true := by decide +kernel
  obtain ⟨s, ran, facts⟩ := Option.any_eq_true _ _ |>.mp accepted
  obtain ⟨errno, turned⟩ := Bool.and_eq_true_iff.mp facts
  obtain ⟨next, took⟩ := Option.isSome_iff_exists.mp turned
  have calm : wouldBlock s.errno = false := by rw [of_decide_eq_true errno]; decide
  have handled := eof_handled_iff 3 4 none _ s ran (sender 7 1400 5 0)
  refine ⟨⟨s, next, ran, took, ?_⟩, _, rfl, ?_⟩
  · exact (handled.1 5 0 peerEof next rfl took).mpr calm
  · exact (handled.2 clientEof _ rfl rfl).mpr (by decide)

/-- After a single read that had to wait, neither side notices the end of the
stream. -/
theorem eof_after_wait_ignored :
    (∃ s next, run TcpServer.step (createSocket 3 4 none)
        [.accept (.ok 5), .readable 5 0 ⟨.error EAGAIN, 0, 0, .accepted 0⟩] = some s ∧
      s.step (.readable 5 0 peerEof) = some next ∧
      next.peers 5 = some 0 ∧ next.waitForDelele = [] ∧ 5 ∈ next.opened) ∧
    ∃ s next, run clientStep (sender 7 1400 5 0) [.read ⟨.error EAGAIN, none⟩] = some s ∧
      clientStep s (.read clientEof) = some next ∧ next.client.sockfd = 5 := by
  constructor
  · have evaluated : (run TcpServer.step (createSocket 3 4 none)
        [.accept (.ok 5), .readable 5 0 ⟨.error EAGAIN, 0, 0, .accepted 0⟩]).any (fun s =>
        (s.step (.readable 5 0 peerEof)).any fun next => decide (next.peers 5 = some 0 ∧
          next.waitForDelele = [] ∧ 5 ∈ next.opened)) = true := by decide +kernel
    obtain ⟨s, ran, ends⟩ := Option.any_eq_true _ _ |>.mp evaluated
    obtain ⟨next, took, facts⟩ := Option.any_eq_true _ _ |>.mp ends
    exact ⟨s, next, ran, took, of_decide_eq_true facts⟩
  · exact ⟨_, _, rfl, rfl, rfl⟩

end TcpCongestion.EndOfFile
