import TcpCongestion.TcpClient

/-! The calls each method of the client makes, as lists. The order matters: a
descriptor that is closed before it is looked at again is a different one. -/
namespace TcpCongestion.TcpClientProofs
open Posix

/-- `UpdateTcpInfo` asks the kernel unless the descriptor is negative. -/
def infoCalls (fd : Int) : List ClientEffect := if fd < 0 then [] else [.getsockopt fd]

/-- `LogTcpInfoEvent` comes back later until the client is done. -/
def logCalls (client : TcpClient) : List ClientEffect :=
  infoCalls client.sockfd ++
    if client.deactiveSent then [] else [.postDelayedTask .logTcpInfoEvent logInterval]

def deleteCalls (client : TcpClient) : List ClientEffect :=
  if client.readEventRegisted then [.deleteFileEvent client.sockfd] else []

def closeCalls (client : TcpClient) : List ClientEffect :=
  if client.sockfd > 0 then
    deleteCalls client ++ [.getsockopt client.sockfd, .close client.sockfd]
  else []

/-- The first data a client reads deactivates it. -/
def deactiveCalls (client : TcpClient) : List ClientEffect :=
  if client.deactiveSent then []
  else (if client.counter then [.decrease] else []) ++ infoCalls client.sockfd

def connectCalls (client : TcpClient) (created : Bool) : List ClientEffect :=
  (if client.connected then
    [.createTimeEvent, .createFileEvent client.sockfd created] ++
      if created then [] else [.close client.sockfd]
  else []) ++ logCalls client

/-! None of these lists has a write. -/

theorem logCalls_quiet (client : TcpClient) (fd : Int) (msg : List UInt8) (count : Nat) :
    .write fd msg count ∉ logCalls client := by
  unfold logCalls infoCalls
  split_ifs <;> simp

theorem closeCalls_quiet (client : TcpClient) (fd : Int) (msg : List UInt8) (count : Nat) :
    .write fd msg count ∉ closeCalls client := by
  unfold closeCalls deleteCalls
  split_ifs <;> simp

theorem deactiveCalls_quiet (client : TcpClient) (fd : Int) (msg : List UInt8) (count : Nat) :
    .write fd msg count ∉ deactiveCalls client := by
  unfold deactiveCalls infoCalls
  split_ifs <;> simp

@[simp] theorem updateTcpInfo_client (s : ClientState) (info : Option Errno) :
    (s.updateTcpInfo info).client = s.client := by
  unfold ClientState.updateTcpInfo
  split <;> rfl

@[simp] theorem updateTcpInfo_effects (s : ClientState) (info : Option Errno) :
    (s.updateTcpInfo info).effects = s.effects ++ infoCalls s.client.sockfd := by
  unfold ClientState.updateTcpInfo infoCalls
  split <;> simp [ClientState.emit]

@[simp] theorem logTcpInfoEvent_client (s : ClientState) (info : Option Errno) :
    (s.logTcpInfoEvent info).client = s.client := by
  unfold ClientState.logTcpInfoEvent
  dsimp only
  split <;> simp [ClientState.emit]

@[simp] theorem logTcpInfoEvent_effects (s : ClientState) (info : Option Errno) :
    (s.logTcpInfoEvent info).effects = s.effects ++ logCalls s.client := by
  unfold ClientState.logTcpInfoEvent logCalls
  dsimp only
  rw [updateTcpInfo_client]
  split <;> simp [ClientState.emit]

@[simp] theorem notifiConnect_client (s : ClientState) (created : Bool) (info : Option Errno) :
    (s.notifiConnect created info).client = s.client := by
  unfold ClientState.notifiConnect
  dsimp only
  rw [logTcpInfoEvent_client]
  split
  · cases created <;> rfl
  · rfl

@[simp] theorem notifiConnect_effects (s : ClientState) (created : Bool) (info : Option Errno) :
    (s.notifiConnect created info).effects = s.effects ++ connectCalls s.client created := by
  unfold ClientState.notifiConnect connectCalls
  dsimp only
  rw [logTcpInfoEvent_effects]
  split
  · cases created <;> simp [ClientState.emit]
  · simp

@[simp] theorem close_client (s : ClientState) (info : Option Errno) :
    (s.close info).client =
      { s.client with sockfd := if s.client.sockfd > 0 then 0 else s.client.sockfd } := by
  unfold ClientState.close
  split
  · have same : s.deleteReadEvent.client = s.client := by
      unfold ClientState.deleteReadEvent
      split <;> try split
      all_goals rfl
    simp [same]
  · rfl

@[simp] theorem close_effects (s : ClientState) (info : Option Errno) :
    (s.close info).effects = s.effects ++ closeCalls s.client := by
  unfold ClientState.close closeCalls deleteCalls ClientState.deleteReadEvent
  split
  · rename_i opened
    have known : ¬ s.client.sockfd < 0 := by omega
    by_cases registered : s.client.readEventRegisted = true <;>
      simp [registered, known, ClientState.emit, infoCalls]
  · simp

@[simp] theorem onData_client (s : ClientState) (info : Option Errno) :
    (s.onData info).client = { s.client with recvAck := true, deactiveSent := true } := by
  unfold ClientState.onData ClientState.notifiDeactiveMsg
  dsimp only
  split
  · rename_i done
    rw [← done]
  · rw [logTcpInfoEvent_client]
    split <;> rfl

@[simp] theorem onData_effects (s : ClientState) (info : Option Errno) :
    (s.onData info).effects = s.effects ++ deactiveCalls s.client := by
  unfold ClientState.onData ClientState.notifiDeactiveMsg deactiveCalls
  dsimp only
  split
  · simp
  · rw [logTcpInfoEvent_effects]
    split <;> simp [ClientState.emit, logCalls]

/-- Every way a turn of the read loop can go. -/
theorem turn_spec (s : ClientState) (input : ClientInput) :
    (∃ chunk, input.result = .data chunk ∧
      (s.turn input).1.client = { s.client with recvAck := true, deactiveSent := true } ∧
      (s.turn input).1.effects =
        s.effects ++ (.read s.client.sockfd chunk.bytes :: deactiveCalls s.client)) ∨
    ((∀ chunk, input.result ≠ .data chunk) ∧
      if wouldBlock (input.result.errnoAfter s.errno) then
        (s.turn input).1.client = s.client ∧
        (s.turn input).1.effects = s.effects ++ [.read s.client.sockfd []]
      else
        (s.turn input).1.client =
          { s.client with sockfd := if s.client.sockfd > 0 then 0 else s.client.sockfd } ∧
        (s.turn input).1.effects =
          s.effects ++ (.read s.client.sockfd [] :: closeCalls s.client)) := by
  unfold ClientState.turn
  split
  · rename_i chunk result
    exact .inl ⟨chunk, result, by simp [ClientState.emit], by simp [ClientState.emit]⟩
  · rename_i other
    refine .inr ⟨other, ?_⟩
    dsimp only [ClientState.emit]
    by_cases waits : wouldBlock (input.result.errnoAfter s.errno) = true
    · rw [if_pos waits, ClientState.onReadEnd, if_pos waits]
      exact ⟨rfl, rfl⟩
    · rw [if_neg waits, ClientState.onReadEnd, if_neg waits]
      simp

end TcpCongestion.TcpClientProofs
