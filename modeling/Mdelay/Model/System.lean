import Mdelay.Model.Master
import Mdelay.Model.Slave

/-!
# The closed system

One master, one slave and the network between them in UDP mode. A label carries what the
environment chooses: clock readings, timestamps, the contents of the stack, what the network does.
-/

namespace Mdelay
open ByteOrder

/-! ### The error queue of a socket -/

/-- The messages that can be read, and those the kernel has still to loop back, oldest first. -/
@[ext]
structure ErrQueue where
  queued : List (List Cmsghdr)
  pending : List (List Cmsghdr)

def solIp : Nat := 0
def ipRecverr : Nat := 11

def txControl (ts : List Timespec) : List Cmsghdr :=
  [⟨solSocket, soTimestamping, 48, ts⟩, ⟨solIp, ipRecverr, 32, []⟩]

def kernelControl (sw : Timespec) : List Cmsghdr := txControl [sw, ⟨0, 0⟩, ⟨0, 0⟩]

def nicControl (nic : Timespec) : List Cmsghdr := txControl [⟨0, 0⟩, ⟨0, 0⟩, nic]

/-- After a `sendto` the software timestamp will be looped back, and then that of the NIC. -/
def ErrQueue.sendto (q : ErrQueue) (sw nic : Timespec) : ErrQueue :=
  { q with pending := q.pending ++ [kernelControl sw, nicControl nic] }

def ErrQueue.loopback (q : ErrQueue) : Option ErrQueue :=
  match q.pending with
  | [] => none
  | cmsgs :: rest => some ⟨q.queued ++ [cmsgs], rest⟩

def ErrQueue.recvmsg (q : ErrQueue) : ErrqRead × ErrQueue :=
  match q.queued with
  | [] => (.eagain, q)
  | cmsgs :: rest => (.message cmsgs, { q with queued := rest })

def SendPc.reads : SendPc → Bool
  | .kernelRead | .nicRead | .drainKernel | .drainNic => true
  | _ => false

/-! ### Hosts and network -/

def nicTime (cmsgs : List Cmsghdr) : Option Timespec :=
  (retrieveTimestamp (putCmsgs 1024 cmsgs)).bind (·[2]?)

structure Config where
  endian : Role → Endian
  measureNumber : Role → BitVec 32
  address : Role → SockaddrIn
  apart : address .master ≠ address .slave

def Role.program (role : Role) (e : Endian) (measureNumber : BitVec 32) : Program :=
  match role with
  | .master => Master.program e measureNumber
  | .slave => Slave.program e measureNumber

abbrev Config.program (c : Config) (r : Role) : Program := r.program (c.endian r) (c.measureNumber r)

/-- A process with its socket. `sender` is the call of `send_udp_packets_timestamp` in progress: that
of the thread of the master, or that of `do_recv` of the slave, which will then return `got`. -/
structure Host (p : Program) where
  loop : p.Loop
  sender : Option Sender
  got : Int
  errq : ErrQueue

structure Datagram where
  src : SockaddrIn
  dst : SockaddrIn
  bytes : List Byte

/-- What a NIC has stamped: a datagram that its host sent or received. -/
structure Obs where
  host : Role
  sent : Bool
  type : BitVec 8
  seq : BitVec 32
  nic : Timespec
  deriving DecidableEq

def Obs.of (host : Role) (sent : Bool) (bytes : List Byte) (nic : Timespec) : Obs :=
  ⟨host, sent, (decode .big bytes).type, (decode .big bytes).seq, nic⟩

structure Sys (c : Config) where
  host : (r : Role) → Host (c.program r)
  net : List Datagram
  trace : List Obs

inductive Label where
  | event (r : Role) (tv : Timeval) (sw nic : Timespec)
  | followUp (r : Role) (sw nic : Timespec)
  | poll (r : Role)
  | loopback (r : Role)
  | resume
  | deliver (r : Role) (i : Nat) (k : Stack) (cmsgs : List Cmsghdr)
  | drop (i : Nat)
  | dup (i : Nat)

variable {c : Config}

/-- The start of `main` in both programs; `var` is what `echo` and `got` hold at the entry. -/
def Sys.start (c : Config) (var : Role → Int) : Sys c where
  host r :=
    { loop := (c.program r).enter (var r)
      sender := match r with
        | .master => some (Master.sendPackets (c.address .slave) (c.measureNumber .master))
        | .slave => none
      got := 0
      errq := ⟨[], []⟩ }
  net := []
  trace := []

/-- The process has not exited, neither in its loop nor in a call of the sender. -/
def Host.alive {p : Program} (h : Host p) : Bool :=
  (h.loop.status = .running || h.loop.status = .left) &&
    h.sender.all fun x => x.pc ≠ .exited && x.pc ≠ .faulted

/-- The process waits in `recvmsg(sock, &msg, 0)`, which the slave does not while it sends. -/
def Host.waits {p : Program} (r : Role) (h : Host p) : Bool :=
  h.alive && h.loop.status = .running && (r = .master || h.sender.isNone)

def Host.receive {p : Program} (h : Host p) : DoRecv p.State → Host p
  | .returned got st => { h with loop := p.afterRecv h.loop got st }
  | .sending got st x => { h with loop := { h.loop with st := st }, sender := some x, got := got }
  | .exited => { h with loop := { h.loop with status := .exited } }
  | .faulted => { h with loop := { h.loop with status := .faulted } }

def Sys.setHost (s : Sys c) (r : Role) (h : Host (c.program r)) : Sys c :=
  { s with host := Function.update s.host r h }

/-- A `sendto` that takes the call to `x`, or the exit of a call with an unknown type. -/
def Sys.sendto (s : Sys c) (r : Role) (sw nic : Timespec) : Sender × Option (List Byte) → Sys c
  | (x, some bytes) =>
    { s.setHost r { s.host r with sender := some x, errq := (s.host r).errq.sendto sw nic } with
      net := s.net ++ [⟨c.address r, x.dsa, bytes⟩]
      trace := s.trace ++ [.of r true bytes nic] }
  | (x, none) => s.setHost r { s.host r with sender := some x }

def Sys.step (s : Sys c) : Label → Option (Sys c)
  | .event r tv sw nic =>
    match (s.host r).sender with
    | some x =>
      if (s.host r).alive ∧ x.pc = .loopHead then some (s.sendto r sw nic (x.sendEvent (c.endian r) tv))
      else none
    | none => none
  | .followUp r sw nic =>
    match (s.host r).sender with
    | some x =>
      if (s.host r).alive ∧ x.pc = .followUp then some (s.sendto r sw nic (x.sendFollowUp (c.endian r)))
      else none
    | none => none
  | .poll r =>
    match (s.host r).sender with
    | some x =>
      if (s.host r).alive ∧ x.pc.reads then
        let (got, errq) := (s.host r).errq.recvmsg
        some (s.setHost r { s.host r with sender := some (x.readErrq got), errq := errq })
      else none
    | none => none
  | .loopback r => (s.host r).errq.loopback.map fun q => s.setHost r { s.host r with errq := q }
  | .resume =>
    match (s.host .slave).sender with
    | some x =>
      if (s.host .slave).alive ∧ x.pc = .returned then
        let h := s.host .slave
        some (s.setHost .slave
          { h with loop := (c.program .slave).afterRecv h.loop h.got h.loop.st, sender := none })
      else none
    | none => none
  | .deliver r i k cmsgs =>
    match s.net[i]?, nicTime cmsgs with
    | some d, some nic =>
      if d.dst = c.address r ∧ (s.host r).waits r then
        let h := s.host r
        let outcome := (c.program r).doRecv k (.message d.bytes d.src cmsgs) h.loop.st
        some { s.setHost r (h.receive outcome) with
          net := s.net.eraseIdx i
          trace := s.trace ++ [.of r false d.bytes nic] }
      else none
    | _, _ => none
  | .drop i => if i < s.net.length then some { s with net := s.net.eraseIdx i } else none
  | .dup i => (s.net[i]?).map fun d => { s with net := s.net ++ [d] }

/-! ### The result files -/

/-- The name a program gives `store_results_to_file`. -/
def Role.filename : Role → String
  | .master => "master_to_slave_latency.txt"
  | .slave => "slave_to_master_latency.txt"

/-- The loop has been left, and the thread of the master has been joined. -/
def Host.finished {p : Program} (h : Host p) : Bool :=
  h.loop.status = .left && h.sender.all fun x => x.pc = .returned

/-- The contents of a file, once the program that writes it has finished. -/
def Sys.file (s : Sys c) (name : String) : Option (List Char) :=
  [Role.master, .slave].findSome? fun r =>
    if r.filename = name ∧ (s.host r).finished then (c.program r).results (s.host r).loop.st else none

def Sys.line (s : Sys c) (name : String) (k : Nat) : Option (List Char) :=
  (s.file name).bind fun file => (Text.readlines file)[k]?

/-! ### What a step does -/

variable {s t : Sys c} {r : Role}

theorem step_event {tv : Timeval} {sw nic : Timespec} : s.step (.event r tv sw nic) = some t ↔
    ∃ x, (s.host r).sender = some x ∧ ((s.host r).alive = true ∧ x.pc = .loopHead) ∧
      s.sendto r sw nic (x.sendEvent (c.endian r) tv) = t := by
  cases calls : (s.host r).sender <;> simp [Sys.step, calls]

theorem step_followUp {sw nic : Timespec} : s.step (.followUp r sw nic) = some t ↔
    ∃ x, (s.host r).sender = some x ∧ ((s.host r).alive = true ∧ x.pc = .followUp) ∧
      s.sendto r sw nic (x.sendFollowUp (c.endian r)) = t := by
  cases calls : (s.host r).sender <;> simp [Sys.step, calls]

theorem step_poll : s.step (.poll r) = some t ↔
    ∃ x, (s.host r).sender = some x ∧ ((s.host r).alive = true ∧ x.pc.reads = true) ∧
      s.setHost r { s.host r with
        sender := some (x.readErrq (s.host r).errq.recvmsg.1)
        errq := (s.host r).errq.recvmsg.2 } = t := by
  cases calls : (s.host r).sender <;> simp [Sys.step, calls]

theorem step_loopback : s.step (.loopback r) = some t ↔
    ∃ q, (s.host r).errq.loopback = some q ∧ s.setHost r { s.host r with errq := q } = t := by
  simp [Sys.step]

theorem step_resume : s.step .resume = some t ↔
    ∃ x, (s.host .slave).sender = some x ∧ ((s.host .slave).alive = true ∧ x.pc = .returned) ∧
      s.setHost .slave { s.host .slave with
        loop := (c.program .slave).afterRecv (s.host .slave).loop (s.host .slave).got (s.host .slave).loop.st
        sender := none } = t := by
  cases calls : (s.host .slave).sender <;> simp [Sys.step, calls]

theorem step_deliver {i : Nat} {k : Stack} {cmsgs : List Cmsghdr} : s.step (.deliver r i k cmsgs) = some t ↔
    ∃ d nic, s.net[i]? = some d ∧ nicTime cmsgs = some nic ∧ (d.dst = c.address r ∧ (s.host r).waits r = true) ∧
      { s.setHost r ((s.host r).receive
          ((c.program r).doRecv k (.message d.bytes d.src cmsgs) (s.host r).loop.st)) with
        net := s.net.eraseIdx i
        trace := s.trace ++ [.of r false d.bytes nic] } = t := by
  cases found : s.net[i]? <;> cases read : nicTime cmsgs <;> simp [Sys.step, found, read]

theorem step_drop {i : Nat} : s.step (.drop i) = some t ↔
    i < s.net.length ∧ { s with net := s.net.eraseIdx i } = t := by
  by_cases inside : i < s.net.length <;> simp [Sys.step, inside]

theorem step_dup {i : Nat} : s.step (.dup i) = some t ↔
    ∃ d, s.net[i]? = some d ∧ { s with net := s.net ++ [d] } = t := by
  simp [Sys.step]

/-! ### Schedules -/

def Lossless (_ : Sys c) : Label → Prop
  | .drop _ | .dup _ => False
  | _ => True

/-- The datagram `i` is a follow-up for `r` whose event is still on its way. -/
def Sys.Overtakes (s : Sys c) (r : Role) (i : Nat) : Prop :=
  ∃ d ∈ s.net[i]?, (decode .big d.bytes).type = (c.program r).followUp.code ∧
    ∃ d' ∈ s.net, d'.dst = c.address r ∧ (decode .big d'.bytes).type = (c.program r).event.code ∧
      (decode .big d'.bytes).seq = (decode .big d.bytes).seq

/-- Nor does it deliver a follow-up before its event. -/
def Ordered (s : Sys c) : Label → Prop
  | .drop _ | .dup _ => False
  | .deliver r i _ _ => ¬ s.Overtakes r i
  | _ => True

instance (s : Sys c) (r : Role) (i : Nat) : Decidable (s.Overtakes r i) :=
  inferInstanceAs (Decidable (∃ d ∈ s.net[i]?, _ ∧ ∃ d' ∈ s.net, _))

instance (s : Sys c) : (l : Label) → Decidable (Ordered s l)
  | .drop _ | .dup _ => .isFalse id
  | .deliver r i _ _ => inferInstanceAs (Decidable (¬ s.Overtakes r i))
  | .event .. | .followUp .. | .poll _ | .loopback _ | .resume => .isTrue trivial

theorem lossless_of_ordered {s : Sys c} {l : Label} (ordered : Ordered s l) : Lossless s l := by
  cases l with
  | drop | dup => exact ordered
  | event | followUp | poll | loopback | resume | deliver => trivial

end Mdelay
