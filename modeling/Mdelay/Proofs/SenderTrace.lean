import Mdelay.Proofs.Attribution
import Mdelay.Proofs.Receiving

/-!
# The trace of a call

When every socket call succeeds a call sends its `2 * N` datagrams and returns: each of them costs one
`sendto`, and two messages that are looped back and read.
-/

namespace Mdelay
open ByteOrder Transition

variable {r : Role} {e : Endian} {x y : Call} {l : CallLabel}

/-! ### The bound -/

/-- What is left: five steps for each datagram, two for each message of the kernel. -/
def Call.work (x : Call) : Nat :=
  5 * (2 * x.sender.n.toNat - x.sent.length) + 2 * x.pending.length + x.queued.length

theorem n_of_step (taken : x.step e l = some y) : y.sender.n = x.sender.n :=
  congrArg (fun args => args.2.2.2.1) (extends_step taken).args

theorem work_sendto {out : Sender × Option (List Byte)} {bytes : List Byte} (sends : out.2 = some bytes)
    (same : out.1.n = x.sender.n) (room : x.sent.length < 2 * x.sender.n.toNat) (sw nic : Timespec) :
    (x.sendto sw nic out).work + 1 ≤ x.work := by
  obtain ⟨sender, bytes⟩ := out
  obtain rfl := sends
  unfold Call.work Call.sendto
  simp only [List.length_append, List.length_cons, List.length_nil]
  rw [show sender.n = x.sender.n from same]
  omega

theorem work_step (steady : x.Steady r e) (succeeds : x.NoFailure l) (taken : x.step e l = some y) :
    y.work + (if x.busy l then 1 else 0) ≤ x.work := by
  have count := n_of_step taken
  cases l with
  | event tv sw nic =>
    obtain ⟨head, rfl⟩ := Call.step_event.mp taken
    have stands := steady.stands
    rw [Call.Stands, head] at stands
    obtain ⟨-, -, inside, sent, -⟩ := stands
    have out := sendEvent_message e tv steady.kind
    rw [out]
    exact work_sendto rfl rfl (by omega) sw nic
  | followUp sw nic =>
    obtain ⟨ready, rfl⟩ := Call.step_followUp.mp taken
    have stands := steady.stands
    rw [Call.Stands, ready] at stands
    obtain ⟨-, ev, ⟨inside, sent, -, -, -, tv, -, held⟩, -⟩ := stands
    have out := sendFollowUp_message e steady.kind held
    rw [out]
    exact work_sendto rfl rfl (by omega) sw nic
  | loopback =>
    obtain ⟨m, rest, pending, rfl⟩ := Call.step_loopback.mp taken
    simp only [Call.work, Call.busy, pending, List.length_append, List.length_cons, List.length_nil, if_true]
    omega
  | poll =>
    obtain ⟨reads, rfl⟩ := Call.step_poll.mp taken
    cases queued : x.queued with
    | nil =>
      rw [recvmsg_empty queued]
      simp [Call.busy, queued]
    | cons m rest =>
      unfold Call.work
      rw [count]
      simp only [Call.recvmsg, Call.busy, queued, List.length_cons, List.isEmpty_cons, Bool.not_false, if_true]
      omega
  | fail => exact succeeds.elim

/-! ### Progress -/

/-- A step that is no failure and no read of an empty error queue. -/
def Call.CanMove (e : Endian) (x : Call) : Prop := ∃ l y, x.NoFailure l ∧ x.busy l = true ∧ x.step e l = some y

theorem canMove_of_looped (reads : x.sender.pc.reads = true) (unread : x.unread ≠ []) : x.CanMove e := by
  cases queued : x.queued with
  | cons m rest => exact ⟨.poll, x.recvmsg, trivial, by simp [Call.busy, queued], Call.step_poll.mpr ⟨reads, rfl⟩⟩
  | nil =>
    cases pending : x.pending with
    | cons m rest => exact ⟨.loopback, _, trivial, rfl, Call.step_loopback.mpr ⟨m, rest, pending, rfl⟩⟩
    | nil => exact absurd (by rw [Call.unread, queued, pending]; rfl) unread

theorem canMove_of_steady (steady : x.Steady r e) (none : x.failures = []) :
    x.CanMove e ∨ x.sender.pc = .returned := by
  have stands := steady.stands
  unfold Call.Stands at stands
  cases pc : x.sender.pc with
  | loopHead => exact Or.inl ⟨.event ⟨0, 0⟩ ⟨0, 0⟩ ⟨0, 0⟩, _, trivial, rfl, Call.step_event.mpr ⟨pc, rfl⟩⟩
  | followUp => exact Or.inl ⟨.followUp ⟨0, 0⟩ ⟨0, 0⟩, _, trivial, rfl, Call.step_followUp.mpr ⟨pc, rfl⟩⟩
  | kernelRead =>
    rw [pc] at stands
    obtain ⟨-, ev, sw, -, looped⟩ := stands
    exact Or.inl (canMove_of_looped (by rw [pc]; rfl) (by simp [looped]))
  | nicRead =>
    rw [pc] at stands
    obtain ⟨-, ev, -, looped⟩ := stands
    exact Or.inl (canMove_of_looped (by rw [pc]; rfl) (by simp [looped]))
  | drainKernel =>
    rw [pc] at stands
    obtain ⟨-, -, -, -, ts, ts', looped⟩ := stands
    exact Or.inl (canMove_of_looped (by rw [pc]; rfl) (by simp [looped]))
  | drainNic =>
    rw [pc] at stands
    obtain ⟨-, ⟨-, -, -, ts, looped⟩ | ⟨some, -⟩⟩ := stands
    · exact Or.inl (canMove_of_looped (by rw [pc]; rfl) (by simp [looped]))
    · exact absurd none some
  | returned => exact Or.inr rfl
  | exited =>
    rw [pc] at stands
    exact absurd none stands
  | faulted =>
    rw [pc] at stands
    exact stands.elim

/-! ### The trace -/

/-- The datagrams `2 * i` and `2 * i + 1` decode, on any host, to the event and the follow-up of the
number `seq + i`, which share the user time; the follow-up has the NIC time of the event as well. -/
def Call.Traced (r : Role) (pktsize : Nat) (seq : BitVec 32) (x : Call) (i : Nat) : Prop :=
  ∃ tv ev d, x.clocks[i]? = some tv ∧ x.sent[2 * i]? = some ev ∧ x.sent[2 * i + 1]? = some d ∧
    ev.bytes.length = pktsize ∧ d.bytes.length = pktsize ∧
    ∀ (receiver : Endian) (k : Stack) (src : SockaddrIn) (cmsgs : List Cmsghdr),
      decode receiver ((Recvmsg.message ev.bytes src cmsgs).buffer k) =
          r.eventHeader (seq + BitVec.ofNat 32 i) tv.nanos ∧
        decode receiver ((Recvmsg.message d.bytes src cmsgs).buffer k) =
          r.followUpHeader (seq + BitVec.ofNat 32 i) tv.nanos ev.nic.nanos

theorem decode_received (receiver : Endian) (k : Stack) (src : SockaddrIn) (cmsgs : List Cmsghdr) (h : Header)
    (size : Nat) (fill : Byte) :
    decode receiver ((Recvmsg.message (h.message size fill) src cmsgs).buffer k) = h := by
  rw [decode_buffer receiver k src cmsgs (full_message h size fill), decode_message]

theorem traced_of_iteration {pktsize : Nat} {seq : BitVec 32} {i : Nat} (room : sizeofMdelayhdr ≤ pktsize)
    (size : x.sender.pktsize = pktsize) (number : x.sender.seq = seq) (iteration : x.Iteration r i) :
    x.Traced r pktsize seq i := by
  obtain ⟨tv, ev, d, ⟨clock, event, bytes⟩, -, followUp, bytes'⟩ := iteration
  rw [size, number] at bytes bytes'
  refine ⟨tv, ev, d, clock, event, followUp, ?_, ?_, fun receiver k src cmsgs => ⟨?_, ?_⟩⟩
  · rw [bytes, length_message _ _ room]
  · rw [bytes', length_message _ _ room]
  · rw [bytes, decode_received]
  · rw [bytes', decode_received]

/-- A call for `N` measurements takes at most `10 * N` steps besides reads of an empty error queue, can
go on until it returns, and has then sent the event and the follow-up of `N` numbers. -/
theorem sender_trace (r : Role) (e : Endian) (dsa : SockaddrIn) (pktsize : Nat) (room : sizeofMdelayhdr ≤ pktsize)
    (n : Nat) (seq : BitVec 32) (ls : List CallLabel)
    (run : Run (Call.step e) Call.NoFailure (Call.start (sendUdpPacketsTimestamp dsa r.pkttype pktsize n seq)) ls x) :
    busySteps (Call.step e) Call.busy (Call.start (sendUdpPacketsTimestamp dsa r.pkttype pktsize n seq)) ls ≤ 10 * n ∧
    (x.sender.pc ≠ .returned → ∃ l y, x.NoFailure l ∧ x.busy l = true ∧ x.step e l = some y) ∧
    (x.sender.pc = .returned → x.sent.length = 2 * n ∧ ∀ i < n, x.Traced r pktsize seq i) := by
  have steady := steady_run run
  have args := args_of_run run
  have count : x.sender.n = n := congrArg (fun args => args.2.2.2.1) args
  have size : x.sender.pktsize = pktsize := congrArg (fun args => args.2.2.1) args
  have number : x.sender.seq = seq := congrArg (fun args => args.2.2.2.2) args
  refine ⟨?_, fun goes => ?_, fun returned => ?_⟩
  · have bounded := busySteps_le Call.busy (fun (y : Call) (_ : Unit) => y.Steady r e) (fun y _ => y.work)
      (fun y _ l z steady succeeds taken => ⟨(), steady_step steady succeeds taken, work_step steady succeeds taken⟩)
      (a := ()) (steady_start r e dsa pktsize n seq) run
    have work : (Call.start (sendUdpPacketsTimestamp dsa r.pkttype pktsize n seq)).work = 10 * n := by
      change 5 * (2 * n - 0) + 2 * 0 + 0 = 10 * n
      omega
    rwa [work] at bounded
  · exact (canMove_of_steady steady (failures_of_run run)).resolve_right goes
  · have stands := steady.stands
    rw [Call.Stands, returned] at stands
    have sent : x.sent.length = 2 * n := by rw [stands.1, count, Int.toNat_natCast]
    exact ⟨sent, fun i inside => traced_of_iteration room size number (steady.done i (by omega))⟩

/-- A slave's call for the number 7. -/
def oneResponse : List CallLabel :=
  lateLoopbacks ++ [.loopback, .loopback, .poll, .poll]

theorem sender_trace_response : ∃ x,
    Run (Call.step .big) Call.NoFailure
      (Call.start (sendUdpPacketsTimestamp ⟨0x0100007f, 1⟩ .delayResp (payloadSize - 10) 1 7)) oneResponse x ∧
    x.sent.length = 2 ∧ x.Traced .slave (payloadSize - 10) 7 0 := by
  obtain ⟨x, run, returned⟩ := run_of_exec (Call.step .big) Call.NoFailure
    (Call.start (sendUdpPacketsTimestamp ⟨0x0100007f, 1⟩ .delayResp (payloadSize - 10) 1 7)) oneResponse
    (fun x => x.sender.pc) .returned (by decide +kernel)
  obtain ⟨-, -, trace⟩ := sender_trace .slave .big _ (payloadSize - 10) (by decide) 1 7 oneResponse run
  obtain ⟨sent, traced⟩ := trace returned
  exact ⟨x, run, sent, traced 0 Nat.one_pos⟩

end Mdelay
