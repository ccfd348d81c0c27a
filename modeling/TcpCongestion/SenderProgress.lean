import TcpCongestion.ClientDescriptors

/-! Whether a sender gets to the end of its stream when the socket takes all it is offered.
`GetBatchSize` reads the number of bytes left as a signed integer, so the answer depends on the
length alone: below 2^31 every call makes progress, and from there on the first batch is already
negative. -/
namespace TcpCongestion.SenderProgress
open Posix Runs Words TcpClientProofs SenderStream ClientDescriptors

/-- Answers of a socket that takes all it is offered, enough of them for the first packet and a
whole batch. -/
def Willing (script : List WriteResult) : Prop :=
  1 + kPacketBatchSize ≤ script.length ∧
    ∀ result ∈ script, ∃ count, maxLine ≤ count ∧ result = .accepted count

/-- What a sender needs to get done. -/
structure Progress (s : ClientState) : Prop where
  batch : s.client.sendByte < s.client.totalByte →
    1 ≤ s.client.getBatchSize ∧ s.client.getBatchSize ≤ 14000
  grows : s.client.sendByte < s.client.totalByte → ∀ call : WriteCall, Willing call.script →
    ∃ next, writeStep s call = some next ∧ s.client.sendByte < next.client.sendByte
  finishes : ∃ enough, ∀ calls : List WriteCall, (∀ call ∈ calls, Willing call.script) →
    enough ≤ calls.length → ∃ last, run writeStep s calls = some last ∧
      last.client.sendByte = s.client.totalByte ∧ last.client.totalByte = s.client.totalByte
  stops : s.client.sendByte = s.client.totalByte → ∀ call, writeStep s call = some s

/-! ## The sender's invariant over all methods -/

/-- The method leaves the progress of the transfer alone and writes nothing. -/
structure Apart (s next : ClientState) : Prop where
  clientId : next.client.clientId = s.client.clientId
  totalByte : next.client.totalByte = s.client.totalByte
  sendByte : next.client.sendByte = s.client.sendByte
  firstSent : next.client.firstSent = s.client.firstSent
  effects : ∃ calls, next.effects = s.effects ++ calls ∧ ∀ fd msg count, .write fd msg count ∉ calls

private theorem Apart.refl (s : ClientState) : Apart s s :=
  ⟨rfl, rfl, rfl, rfl, [], by simp, by simp⟩

private theorem Apart.trans (first : Apart s mid) (second : Apart mid next) : Apart s next := by
  obtain ⟨early, grown, quiet⟩ := first.effects
  obtain ⟨late, grownMore, quietMore⟩ := second.effects
  refine ⟨second.clientId.trans first.clientId, second.totalByte.trans first.totalByte,
    second.sendByte.trans first.sendByte, second.firstSent.trans first.firstSent, early ++ late,
    by rw [grownMore, grown, List.append_assoc], fun fd msg count member => ?_⟩
  exact (List.mem_append.mp member).elim (quiet fd msg count) (quietMore fd msg count)

private theorem Apart.inv (apart : Apart s next) (inv : SenderInv s) : SenderInv next := by
  obtain ⟨calls, grown, quiet⟩ := apart.effects
  exact inv.frame apart.clientId apart.totalByte apart.sendByte apart.firstSent grown quiet

private theorem bind_apart (s : ClientState) (answer : Except Errno Int) (parses : Bool)
    (bound algo : Option Errno) : Apart s (s.bind answer parses bound algo) := by
  cases answer with
  | error errno => exact ⟨rfl, rfl, rfl, rfl, [], by simp [ClientState.bind], by simp⟩
  | ok fd =>
    cases parses with
    | false => exact ⟨rfl, rfl, rfl, rfl, [.socket fd], rfl, by simp⟩
    | true =>
      refine ⟨rfl, rfl, rfl, rfl, [.socket fd, .bind fd, .setCongestionAlgo fd], ?_, by simp⟩
      simp [ClientState.bind, ClientState.setCongestionAlgo, ClientState.emit]

private theorem asynConnect_apart (s : ClientState) : Apart s s.asynConnect := by
  unfold ClientState.asynConnect
  split
  · exact ⟨rfl, rfl, rfl, rfl, [.startThread], rfl, by simp⟩
  · exact Apart.refl s

private theorem stopConectionThread_apart (s : ClientState) : Apart s s.stopConectionThread := by
  unfold ClientState.stopConectionThread
  split
  · exact ⟨rfl, rfl, rfl, rfl, [.postTask .stopUseOnce], rfl, by simp⟩
  · exact Apart.refl s

private theorem synConnect_apart (s : ClientState) (answer : Except Errno Unit) :
    Apart s (s.synConnect answer) := by
  unfold ClientState.synConnect
  split
  · exact stopConectionThread_apart s
  · refine Apart.trans ?_ (stopConectionThread_apart _)
    cases answer with
    | error | ok =>
      exact ⟨rfl, rfl, rfl, rfl, [.connect s.client.sockfd, .postTask .notifiConnect],
        by simp [ClientState.emit], by simp⟩

private theorem notifiConnect_apart (s : ClientState) (created : Bool) (info : Option Errno) :
    Apart s (s.notifiConnect created info) := by
  refine ⟨by simp, by simp, by simp, by simp, _, notifiConnect_effects s created info, ?_⟩
  intro fd msg count member
  rcases List.mem_append.mp member with first | last
  · split_ifs at first <;> simp at first
  · exact logCalls_quiet s.client fd msg count last

private theorem turn_apart (s : ClientState) (input : ClientInput) : Apart s (s.turn input).1 := by
  rcases turn_spec s input with ⟨chunk, _, client, grown⟩ | ⟨_, last⟩
  · refine ⟨by rw [client], by rw [client], by rw [client], by rw [client], _, grown, ?_⟩
    simpa using deactiveCalls_quiet s.client
  · split at last
    · obtain ⟨client, grown⟩ := last
      exact ⟨by rw [client], by rw [client], by rw [client], by rw [client], _, grown, by simp⟩
    · obtain ⟨client, grown⟩ := last
      refine ⟨by rw [client], by rw [client], by rw [client], by rw [client], _, grown, ?_⟩
      intro fd msg count member
      rcases List.mem_cons.mp member with same | close
      · cases same
      · exact closeCalls_quiet s.client fd msg count close

private theorem close_apart (s : ClientState) (info : Option Errno) : Apart s (s.close info) :=
  ⟨by simp, by simp, by simp, by simp, _, close_effects s info, closeCalls_quiet s.client⟩

/-- Every method but `NextWriteTime` leaves the transfer alone. -/
theorem step_cases (took : step s method = some next) :
    Apart s next ∨ ∃ script nextTimems, writeStep s ⟨script, nextTimems⟩ = some next := by
  rw [step, Option.ite_none_right_eq_some] at took
  obtain ⟨_, called⟩ := took
  cases method with
  | bind answer parses bound algo =>
    cases called
    exact .inl (bind_apart s answer parses bound algo)
  | asynConnect =>
    cases called
    exact .inl (asynConnect_apart s)
  | synConnect answer =>
    cases called
    exact .inl (synConnect_apart s answer)
  | notifiConnect created info =>
    cases called
    exact .inl (notifiConnect_apart s created info)
  | nextWriteTime script nextTimems => exact .inr ⟨script, nextTimems, called⟩
  | notifiRead input =>
    cases called
    exact .inl (turn_apart s input)
  | logTcpInfoEvent info =>
    cases called
    exact .inl ⟨by simp, by simp, by simp, by simp, _, logTcpInfoEvent_effects s info,
      logCalls_quiet s.client⟩
  | close info | destructor info =>
    cases called
    exact .inl (close_apart s info)
  | failedCall errno =>
    cases called
    exact .inl ⟨rfl, rfl, rfl, rfl, [], by simp, by simp⟩

/-- What a run of the client keeps. -/
theorem client_run (ran : run step (constructed cid length errno) methods = some s) :
    SenderInv s ∧ s.client.totalByte = (constructed cid length errno).client.totalByte := by
  refine run_invariant (P := fun s => SenderInv s ∧
    s.client.totalByte = (constructed cid length errno).client.totalByte) ⟨?_, rfl⟩ ?_ ran
  · exact sender_inv cid length (-1) errno
  · rintro mid method next ⟨inv, total⟩ took
    rcases step_cases took with apart | ⟨script, nextTimems, wrote⟩
    · exact ⟨apart.inv inv, apart.totalByte.trans total⟩
    · obtain ⟨kept, ⟨_, _, client⟩, _, _⟩ := writeStep_spec inv wrote
      exact ⟨kept, by rw [client]; exact total⟩

/-! ## A call on a willing socket -/

/-- Below 2^31 a count is the same number as a signed integer. -/
theorem toInt32_small (value : UInt32) (small : value.toNat < 2 ^ 31) :
    value.toInt32.toInt = value.toNat := by
  rw [toInt32_toInt, if_pos (by omega)]

private theorem getBatchSize_eq (client : TcpClient) (within : client.sendByte ≤ client.totalByte)
    (small : client.totalByte.toNat < 2 ^ 31) :
    client.getBatchSize = min 14000 (client.totalByte.toNat - client.sendByte.toNat : Nat) := by
  have remain := UInt32.toNat_sub_of_le _ _ within
  rw [TcpClient.getBatchSize, toInt32_small _ (by omega), remain, Nat.cast_min]
  rfl

/-- A line that a willing socket is offered is taken as a whole. -/
theorem writeMessage_willing (s : ClientState) (msg : List UInt8) (isOpen : 0 < s.client.sockfd)
    (something : 1 ≤ msg.length) (line : msg.length ≤ maxLine) (willing : maxLine ≤ count) :
    ∃ next, s.writeMessage msg (.accepted count) = some (next, msg.length) ∧
      next.client = s.client := by
  have whole : (WriteResult.accepted count).count msg.length = msg.length :=
    Nat.min_eq_right (by omega)
  refine ⟨s.emit (.write s.client.sockfd msg msg.length), ?_, rfl⟩
  rw [ClientState.writeMessage, if_neg (by omega)]
  dsimp only
  rw [whole, if_neg (by omega)]

private theorem writePacketInBatch_willing (isOpen : 0 < s.client.sockfd)
    (willing : ∀ result ∈ script, ∃ count, maxLine ≤ count ∧ result = .accepted count)
    (enough : remain ≤ script.length * maxLine) :
    ∃ next, ClientState.writePacketInBatch s remain script = some (next, remain) ∧
      next.client = s.client := by
  induction script generalizing s remain with
  | nil =>
    obtain rfl : remain = 0 := by simpa using enough
    exact ⟨s, rfl, rfl⟩
  | cons result rest ih =>
    by_cases none : remain = 0
    · subst none
      exact ⟨s, rfl, rfl⟩
    · obtain ⟨count, line, rfl⟩ := willing result List.mem_cons_self
      obtain ⟨mid, wrote, same⟩ := writeMessage_willing s
        (List.replicate (min remain maxLine) 0) isOpen (by simp [maxLine]; omega) (by simp) line
      rw [List.length_replicate] at wrote
      have part : min remain maxLine ≠ 0 := by simp [maxLine, none]
      have left : remain - min remain maxLine ≤ rest.length * maxLine := by
        rw [List.length_cons, Nat.succ_mul] at enough
        omega
      obtain ⟨next, looped, kept⟩ := ih (s := mid) (by rw [same]; exact isOpen)
        (fun other member => willing other (List.mem_cons_of_mem _ member)) left
      refine ⟨next, ?_, kept.trans same⟩
      rw [ClientState.writePacketInBatch, if_neg none, wrote]
      split
      · rename_i impossible
        cases impossible
      · rename_i nothing
        rw [Option.some.injEq, Prod.mk.injEq] at nothing
        exact absurd nothing.2 part
      · rename_i taken
        cases taken
        rw [looped, Option.map_some]
        dsimp only
        rw [Nat.add_sub_cancel' (Nat.min_le_left _ _)]

private theorem writeBatch_willing (isOpen : 0 < s.client.sockfd)
    (willing : ∀ result ∈ script, ∃ count, maxLine ≤ count ∧ result = .accepted count)
    (enough : s.client.getBatchSize.toNat ≤ script.length * maxLine) :
    ∃ next, ClientState.writeBatch s script = some next ∧
      next.client = s.client.increaseWriteBytes s.client.getBatchSize.toNat := by
  obtain ⟨next, looped, same⟩ := writePacketInBatch_willing isOpen willing enough
  refine ⟨{ next with client := next.client.increaseWriteBytes s.client.getBatchSize.toNat }, ?_, ?_⟩
  · rw [ClientState.writeBatch, looped]
    rfl
  · rw [← same]

private theorem opened_sockfd (client : TcpClient) : (opened client).sockfd = client.sockfd := by
  simp only [opened, TcpClient.increaseWriteBytes]

/-- A call that has something left to send sends some of it. -/
theorem writeStep_grows {call : WriteCall} (inv : SenderInv s) (isOpen : 0 < s.client.sockfd)
    (small : s.client.totalByte.toNat < 2 ^ 31)
    (short : s.client.sendByte < s.client.totalByte) (willing : Willing call.script) :
    ∃ next, writeStep s call = some next ∧ s.client.sendByte < next.client.sendByte := by
  obtain ⟨script, nextTimems⟩ := call
  obtain ⟨many, takes⟩ : Willing script := willing
  have within := inv.within
  have left := UInt32.lt_iff_toNat_lt.mp short
  have size := getBatchSize_eq s.client within small
  have something : s.client.getBatchSize ≠ 0 := by omega
  rw [kPacketBatchSize] at many
  rw [writeStep, ClientState.nextWriteTime, if_neg (by omega), if_neg something]
  cases first : s.client.firstSent with
  | true =>
    obtain ⟨next, wrote, client⟩ := writeBatch_willing isOpen takes
      (by rw [maxLine]; omega)
    have count := increaseWriteBytes_toNat s.client s.client.getBatchSize.toNat (by omega)
    refine ⟨next, by rw [if_pos rfl, wrote]; rfl, ?_⟩
    rw [client, UInt32.lt_iff_toNat_lt, count]
    omega
  | false =>
    cases script with
    | nil => simp at many
    | cons result rest =>
      obtain ⟨count, line, rfl⟩ := takes result List.mem_cons_self
      obtain ⟨mid, wrote, same⟩ := writeMessage_willing s
        (ClientState.firstPacket s.client) isOpen
        (by simp [firstPacket_length, maxLine]) (by simp [firstPacket_length]) line
      rw [firstPacket_length] at wrote
      have zero := inv.fresh first
      have begun : (opened s.client).sendByte.toNat = 1400 := by
        rw [opened_sendByte, zero]
        decide
      have large := inv.large
      have fits : (opened s.client).sendByte ≤ (opened s.client).totalByte := by
        rw [UInt32.le_iff_toNat_le, begun, opened_totalByte]
        exact large
      have batch := getBatchSize_eq (opened s.client) fits (by rw [opened_totalByte]; exact small)
      rw [begun, opened_totalByte] at batch
      obtain ⟨next, sent, client⟩ := writeBatch_willing
        (s := { mid with client := opened s.client }) (by rw [opened_sockfd]; exact isOpen)
        (fun other member => takes other (List.mem_cons_of_mem _ member))
        (by rw [List.length_cons] at many; rw [maxLine]; dsimp only; omega)
      have total := increaseWriteBytes_toNat (opened s.client)
        (opened s.client).getBatchSize.toNat (by rw [begun, opened_totalByte]; omega)
      refine ⟨next, ?_, ?_⟩
      · rw [if_neg (by simp)]
        simp only [List.head?_cons, Option.getD_some, List.tail_cons, wrote, same, if_true]
        rw [show ({ s.client.increaseWriteBytes maxLine with firstSent := true } : TcpClient) =
          opened s.client from rfl, sent]
        rfl
      · have none : s.client.sendByte.toNat = 0 := by rw [zero]; rfl
        rw [client, UInt32.lt_iff_toNat_lt, total, begun, none]
        omega

/-- A sender that is through does nothing any more. -/
theorem writeStep_done (done : s.client.sendByte = s.client.totalByte) (call : WriteCall) :
    writeStep s call = some s := by
  have nothing : s.client.getBatchSize = 0 := by
    rw [TcpClient.getBatchSize, done, UInt32.sub_self]
    rfl
  rw [writeStep, ClientState.nextWriteTime, if_pos nothing, ite_self, Option.map_some]

/-- The bytes left bound the number of calls. -/
theorem willing_run (inv : SenderInv s) (isOpen : 0 < s.client.sockfd)
    (small : s.client.totalByte.toNat < 2 ^ 31) (calls : List WriteCall)
    (willing : ∀ call ∈ calls, Willing call.script)
    (enough : s.client.totalByte.toNat - s.client.sendByte.toNat ≤ calls.length) :
    ∃ last, run writeStep s calls = some last ∧
      last.client.sendByte = s.client.totalByte ∧ last.client.totalByte = s.client.totalByte := by
  induction calls generalizing s with
  | nil =>
    have within := UInt32.le_iff_toNat_le.mp inv.within
    rw [List.length_nil] at enough
    exact ⟨s, rfl, UInt32.toNat_inj.mp (by omega), rfl⟩
  | cons call rest ih =>
    have others : ∀ other ∈ rest, Willing other.script := fun other member =>
      willing other (List.mem_cons_of_mem _ member)
    by_cases done : s.client.sendByte = s.client.totalByte
    · have first := writeStep_done done call
      obtain ⟨last, onward, ends⟩ := ih inv isOpen small others (by rw [done]; omega)
      exact ⟨last, run_cons.mpr ⟨s, first, onward⟩, ends⟩
    · have within := UInt32.le_iff_toNat_le.mp inv.within
      have short : s.client.sendByte < s.client.totalByte := by
        rw [UInt32.lt_iff_toNat_lt]
        have different : s.client.sendByte.toNat ≠ s.client.totalByte.toNat := fun same =>
          done (UInt32.toNat_inj.mp same)
        omega
      obtain ⟨next, first, more⟩ :=
        writeStep_grows inv isOpen small short (willing call List.mem_cons_self)
      obtain ⟨kept, ⟨sendByte, firstSent, client⟩, _, _⟩ := writeStep_spec inv first
      have total : next.client.totalByte = s.client.totalByte := by rw [client]
      have grown := UInt32.lt_iff_toNat_lt.mp more
      rw [List.length_cons] at enough
      obtain ⟨last, onward, ends, same⟩ := ih kept (by rw [client]; exact isOpen)
        (by rw [total]; exact small) others (by rw [total]; omega)
      exact ⟨last, run_cons.mpr ⟨next, first, onward⟩, ends.trans total, same.trans total⟩

private theorem progress_of_small (inv : SenderInv s) (isOpen : 0 < s.client.sockfd)
    (small : s.client.totalByte.toNat < 2 ^ 31) : Progress s where
  batch short := by
    have left := UInt32.lt_iff_toNat_lt.mp short
    rw [getBatchSize_eq s.client inv.within small]
    omega
  grows short call willing := writeStep_grows inv isOpen small short willing
  finishes := ⟨_, willing_run inv isOpen small⟩
  stops done call := writeStep_done done call

/-! ## The lengths that get through -/

private theorem constructed_total (cid length : UInt32) (errno : Errno) :
    (constructed cid length errno).client.totalByte.toNat = max 1400 length.toNat := by
  simp only [constructed, TcpClient.setSenderInfo]
  split
  · rename_i low
    have below := UInt32.lt_iff_toNat_lt.mp low
    simp only [UInt32.reduceToNat] at below ⊢
    omega
  · rename_i enough
    have above := UInt32.le_iff_toNat_le.mp (UInt32.not_lt.mp enough)
    simp only [UInt32.reduceToNat] at above
    omega

/-- A difference of 2^31 or more is negative as a signed integer. -/
theorem getBatchSize_negative (client : TcpClient)
    (large : 2 ^ 31 ≤ (client.totalByte - client.sendByte).toNat) : client.getBatchSize < 0 := by
  have bound := (client.totalByte - client.sendByte).toNat_lt
  rw [TcpClient.getBatchSize, toInt32_toInt, if_neg (by omega)]
  omega

/-- Every state a client reaches with an open socket gets on to the end of its stream, on a socket
that takes all it is offered, exactly if the length it was given is a positive `int`. -/
theorem sender_progress_iff (cid length : UInt32) (errno : Errno) :
    (∀ (methods : List Method) (s : ClientState),
      run step (constructed cid length errno) methods = some s → 0 < s.client.sockfd →
        Progress s) ↔ length.toNat < 2 ^ 31 := by
  constructor
  · intro always
    by_contra large
    have bound := constructed_total cid length errno
    -- a client that has just been bound has everything left to send
    let s := (constructed cid length errno).bind (.ok 5) true none none
    have progress : Progress s :=
      always [.bind (.ok 5) true none none] s rfl (show (0 : Int) < 5 by decide)
    have total : s.client.totalByte.toNat = max 1400 length.toNat := bound
    have none : s.client.sendByte = 0 := rfl
    have short : s.client.sendByte < s.client.totalByte := by
      rw [UInt32.lt_iff_toNat_lt, none, total]
      simp
    have negative := getBatchSize_negative s.client (by rw [none, UInt32.sub_zero]; omega)
    have positive := (progress.batch short).1
    omega
  · intro small methods s ran isOpen
    obtain ⟨inv, total⟩ := client_run ran
    refine progress_of_small inv isOpen ?_
    rw [total, constructed_total]
    omega

theorem short_length_progress :
    ∀ (methods : List Method) (s : ClientState),
      run step (constructed 7 5000 0) methods = some s → 0 < s.client.sockfd → Progress s :=
  (sender_progress_iff 7 5000 0).mpr (by decide)

/-- A batch of no size sends nothing, whatever the socket would take. -/
theorem writeStep_stuck (isOpen : 0 < s.client.sockfd) (begun : s.client.firstSent = true)
    (negative : s.client.getBatchSize < 0) (call : WriteCall) : writeStep s call = some s := by
  have size : s.client.getBatchSize.toNat = 0 := by omega
  have nothing : ∀ script, s.writePacketInBatch 0 script = some (s, 0) := by
    intro script
    cases script <;> rfl
  have same : s.client.increaseWriteBytes 0 = s.client := by
    simp only [TcpClient.increaseWriteBytes]
    rw [show UInt32.ofNat 0 = 0 from rfl, UInt32.add_zero]
  rw [writeStep, ClientState.nextWriteTime, if_neg (by omega), if_neg (by omega), if_pos begun,
    ClientState.writeBatch, size, nothing]
  simp only [Option.map_some, same]

/-- A length of three billion bytes: the first line goes out, and then nothing ever again. -/
theorem long_length_stuck :
    ∃ s, run step (constructed 7 3000000000 0) [.bind (.ok 5) true none none,
        .nextWriteTime (List.replicate 11 (.accepted 1400)) 0] = some s ∧
      0 < s.client.sockfd ∧ s.client.sendByte = 1400 ∧ s.client.totalByte = 3000000000 ∧
      s.client.getBatchSize < 0 ∧ ∀ calls, run writeStep s calls = some s := by
  have evaluated : (run step (constructed 7 3000000000 0) [.bind (.ok 5) true none none,
      .nextWriteTime (List.replicate 11 (.accepted 1400)) 0]).any (fun s =>
        decide (0 < s.client.sockfd) && decide (s.client.sendByte = 1400) &&
        decide (s.client.totalByte = 3000000000) && decide (s.client.getBatchSize < 0) &&
        s.client.firstSent) = true := by decide +kernel
  obtain ⟨s, ran, facts⟩ := Option.any_eq_true _ _ |>.mp evaluated
  simp only [Bool.and_eq_true, decide_eq_true_eq] at facts
  obtain ⟨⟨⟨⟨isOpen, sent⟩, total⟩, negative⟩, begun⟩ := facts
  refine ⟨s, ran, isOpen, sent, total, negative, fun calls => ?_⟩
  induction calls with
  | nil => rfl
  | cons call rest ih => exact run_cons.mpr ⟨s, writeStep_stuck isOpen begun negative call, ih⟩

end TcpCongestion.SenderProgress
