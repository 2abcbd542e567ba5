import Mdelay.Model.System

/-!
# One call of send_udp_packets_timestamp

The call with the error queue of its socket, where every message is marked with the datagram it
belongs to, and a record of what the call did. The marks are no part of what the call reads.
-/

namespace Mdelay
open ByteOrder

/-- A datagram as it was sent, with the time its NIC sent it. -/
structure Sent where
  dst : SockaddrIn
  bytes : List Byte
  nic : Timespec

/-- A timestamp message; `origin` is the position of its datagram among those sent. -/
structure Looped where
  origin : Nat
  cmsgs : List Cmsghdr

/-- `failures` has for every failed read the number of datagrams sent before it. -/
structure Call where
  sender : Sender
  queued : List Looped
  pending : List Looped
  clocks : List Timeval
  sent : List Sent
  reads : List Looped
  failures : List Nat

inductive CallLabel where
  | event (tv : Timeval) (sw nic : Timespec)
  | followUp (sw nic : Timespec)
  | loopback
  | poll
  | fail

namespace Call

def start (x : Sender) : Call := ⟨x, [], [], [], [], [], []⟩

def sendto (x : Call) (sw nic : Timespec) : Sender × Option (List Byte) → Call
  | (sender, some bytes) =>
    { x with
      sender := sender
      pending := x.pending ++ [⟨x.sent.length, kernelControl sw⟩, ⟨x.sent.length, nicControl nic⟩]
      sent := x.sent ++ [⟨sender.dsa, bytes, nic⟩] }
  | (sender, none) => { x with sender := sender }

/-- `recvmsg(sock, &msg, MSG_ERRQUEUE)` takes the oldest message, or returns EAGAIN. -/
def recvmsg (x : Call) : Call :=
  match x.queued with
  | [] => { x with sender := x.sender.readErrq .eagain }
  | m :: rest =>
    { x with sender := x.sender.readErrq (.message m.cmsgs), queued := rest, reads := x.reads ++ [m] }

def step (e : Endian) (x : Call) : CallLabel → Option Call
  | .event tv sw nic =>
    if x.sender.pc = .loopHead then
      some { x.sendto sw nic (x.sender.sendEvent e tv) with clocks := x.clocks ++ [tv] }
    else none
  | .followUp sw nic =>
    if x.sender.pc = .followUp then some (x.sendto sw nic (x.sender.sendFollowUp e)) else none
  | .loopback =>
    match x.pending with
    | [] => none
    | m :: rest => some { x with queued := x.queued ++ [m], pending := rest }
  | .poll => if x.sender.pc.reads then some x.recvmsg else none
  | .fail =>
    if x.sender.pc.reads then
      some { x with sender := x.sender.readErrq .failure, failures := x.failures ++ [x.sent.length] }
    else none

/-- Every step but a read that finds the error queue empty. -/
def busy (x : Call) : CallLabel → Bool
  | .poll => !x.queued.isEmpty
  | _ => true

/-- No read fails with an errno other than EAGAIN. -/
def NoFailure (_ : Call) : CallLabel → Prop
  | .fail => False
  | _ => True

instance (x : Call) : (l : CallLabel) → Decidable (x.NoFailure l)
  | .fail => .isFalse id
  | .event .. | .followUp .. | .loopback | .poll => .isTrue trivial

/-! ### What a step does -/

variable {e : Endian} {x y : Call}

theorem step_event {tv : Timeval} {sw nic : Timespec} : x.step e (.event tv sw nic) = some y ↔
    x.sender.pc = .loopHead ∧
      { x.sendto sw nic (x.sender.sendEvent e tv) with clocks := x.clocks ++ [tv] } = y := by
  simp [step]

theorem step_followUp {sw nic : Timespec} : x.step e (.followUp sw nic) = some y ↔
    x.sender.pc = .followUp ∧ x.sendto sw nic (x.sender.sendFollowUp e) = y := by
  simp [step]

theorem step_loopback : x.step e .loopback = some y ↔
    ∃ m rest, x.pending = m :: rest ∧ { x with queued := x.queued ++ [m], pending := rest } = y := by
  cases pending : x.pending <;> simp [step, pending]

theorem step_poll : x.step e .poll = some y ↔ x.sender.pc.reads = true ∧ x.recvmsg = y := by
  simp [step]

theorem step_fail : x.step e .fail = some y ↔ x.sender.pc.reads = true ∧
    { x with sender := x.sender.readErrq .failure, failures := x.failures ++ [x.sent.length] } = y := by
  simp [step]

end Call

/-! ### One call after another -/

/-- The call that `do_recv` makes. -/
def Call.enter {σ : Type} (x : Call) : DoRecv σ → Call
  | .sending _ _ sender => { x with sender := sender }
  | .returned .. | .exited | .faulted => x

namespace Slave

/-- The slave with the error queue of its socket, which all its calls share. -/
structure Answering (e : Endian) (measureNumber : BitVec 32) where
  loop : (program e measureNumber).Loop
  call : Call

inductive AnswerLabel where
  | recv (k : Stack) (r : Recvmsg)
  | inside (l : CallLabel)

variable {e : Endian} {measureNumber : BitVec 32}

/-- No call has been made yet: one for no packets has returned. -/
def Answering.start (e : Endian) (measureNumber : BitVec 32) (var : Int) : Answering e measureNumber :=
  ⟨(program e measureNumber).enter var, .start (sendUdpPacketsTimestamp ⟨0, 0⟩ .delayResp (payloadSize - 10) 0 0)⟩

/-- The loop makes its test when a call begins, and a call changes nothing that the test looks at. -/
def Answering.step (x : Answering e measureNumber) : AnswerLabel → Option (Answering e measureNumber)
  | .recv k r =>
    if x.call.sender.pc = .returned then
      ((program e measureNumber).turn x.loop (k, r)).map fun loop =>
        ⟨loop, x.call.enter ((program e measureNumber).doRecv k r x.loop.st)⟩
    else none
  | .inside l => (x.call.step e l).map fun call => { x with call := call }

end Slave

end Mdelay
