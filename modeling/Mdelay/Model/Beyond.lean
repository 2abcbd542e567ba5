import Mdelay.Library.Overrun
import Mdelay.Model.Reference
import Mdelay.Model.System

/-!
# Past the end of an array

The receive loops as they go on where an access outside an array meets memory that the program has. `around`
is what memory holds around the array, `behind` what it holds where the timestamps of a control message end
too early. The memory so changed is taken to be in no other use, as the slack that `malloc` leaves.
-/

namespace Mdelay
open ByteOrder Overrun

variable {cap : Nat}

/-- Entry `i` of what `retrieve_timestamp` returned. NULL cannot be read. -/
def entryOf (ts : Option (List Timespec)) (i : Nat) (behind : Timespec) : Option Timespec :=
  ts.map fun ts => (ts[i]?).getD behind

/-! ### master.c and slave.c -/

abbrev Entries := Around P2pdelay

def Measurements.poke (m : Measurements cap) (around : Entries) (pktseq : Int) (f : P2pdelay → P2pdelay) :
    Option (Measurements cap × Entries) :=
  (write m.p2pdelayMeasurements around pktseq f).map fun (entries, around) =>
    ({ m with p2pdelayMeasurements := entries }, around)

def Measurements.pokeRecv (m : Measurements cap) (around : Entries) (pktseq : Int) (t : BitVec 64) :
    Option (Measurements cap × Entries) :=
  m.poke around pktseq fun d => { d with recvTt := t }

def Measurements.pokeSent (m : Measurements cap) (around : Entries) (pktseq : Int) (t : BitVec 64) :
    Option (Measurements cap × Entries) :=
  m.poke around pktseq fun d => { d with sentTt := t }

def Master.doRecvOn (e : Endian) (k : Stack) (r : Recvmsg) (behind : Timespec) (m : Measurements entries)
    (around : Entries) : DoRecv (Measurements entries × Entries) :=
  let got := r.got
  if got = 0 then .returned 0 (m, around)
  else
    let mdelayhdr := Mdelayhdr.ofBytes e (r.buffer k)
    let pktseq := (ntohl e mdelayhdr.seq).toInt
    let t4 := ntoh64 e mdelayhdr.t4
    match PktType.ofCode mdelayhdr.type with
    | some .delayResp =>
      match entryOf (retrieveTimestamp (r.control k)) 2 behind with
      | some ts => .written got (m.pokeRecv around pktseq ts.nanos)
      | none => .faulted
    | some .delayRespFollowUp => .written got (m.count.pokeSent around pktseq t4)
    | _ => .exited

def Slave.doRecvOn (e : Endian) (k : Stack) (r : Recvmsg) (behind : Timespec) (s : State cap) (around : Entries) :
    DoRecv (State cap × Entries) :=
  let got := r.got
  if got = 0 then .returned 0 (s, around)
  else
    let mdelayhdr := Mdelayhdr.ofBytes e (r.buffer k)
    let pktseq := ntohl e mdelayhdr.seq
    let t2 := ntoh64 e mdelayhdr.t2
    let tsTmp := retrieveTimestamp (r.control k)
    match s.recordPeer e (r.hostAddress k) with
    | none => .faulted
    | some (s, hostAddress) =>
      match PktType.ofCode mdelayhdr.type with
      | some .delayReq =>
        match entryOf tsTmp 2 behind with
        | some ts =>
          .written got ((s.meas.pokeRecv around pktseq.toNat ts.nanos).map fun (m, around) =>
            ({ s with meas := m }, around))
        | none => .faulted
      | some .delayReqFollowUp =>
        match s.meas.count.pokeSent around pktseq.toNat t2 with
        | some (m, around) =>
          .sending got ({ s with meas := m }, around)
            (sendUdpPacketsTimestamp hostAddress .delayResp (payloadSize - 10) 1 pktseq)
        | none => .faulted
      | _ => .exited

def Role.doRecvOn : (role : Role) → (e : Endian) → (measureNumber : BitVec 32) → Stack → Recvmsg → Timespec →
    (role.program e measureNumber).State → Entries → DoRecv ((role.program e measureNumber).State × Entries)
  | .master, e, _ => Master.doRecvOn e
  | .slave, e, _ => Slave.doRecvOn e

structure Program.LoopOn (p : Program) where
  loop : p.Loop
  around : Entries

def Program.enterOn (p : Program) (var : Int) (around : Entries) : p.LoopOn := ⟨p.enter var, around⟩

/-- `Program.turn` with `doRecvOn`. -/
def Role.turnOn (role : Role) (e : Endian) (measureNumber : BitVec 32)
    (l : (role.program e measureNumber).LoopOn) (input : (Stack × Recvmsg) × Timespec) :
    Option (role.program e measureNumber).LoopOn :=
  if l.loop.status = .running then
    match role.doRecvOn e measureNumber input.1.1 input.1.2 input.2 l.loop.st l.around with
    | .returned got (st, around) => some ⟨(role.program e measureNumber).afterRecv l.loop got st, around⟩
    | .sending got (st, around) _ => some ⟨(role.program e measureNumber).afterRecv l.loop got st, around⟩
    | .exited => some { l with loop := { l.loop with status := .exited } }
    | .faulted => some { l with loop := { l.loop with status := .faulted } }
  else none

/-- The contents of the file, which `store_results_to_file` reads from wherever the counter leads it. -/
def Program.resultsOn (p : Program) (l : p.LoopOn) : Option (List Char) :=
  if p.allocated then
    ((List.range (p.total l.loop.st).toNat).mapM fun (i : Nat) =>
      (read (p.measurements l.loop.st).p2pdelayMeasurements l.around i).map fun d => fprintfLu d.delay).map List.flatten
  else none

/-! ### rx_timestamping.c -/

namespace Rx

structure Numbers (cap : Nat) where
  entries : Fin cap → BitVec 64
  around : Around (BitVec 64)

def Numbers.put (numbers : Numbers cap) (i latency : BitVec 64) : Option (Numbers cap) :=
  (write numbers.entries numbers.around i.toNat fun _ => latency).map fun (entries, around) => ⟨entries, around⟩

/-- `strayed` says that an entry outside the arrays has been accessed. -/
structure Memory (cap : Nat) where
  totalReceived : BitVec 64
  nicKernel : Numbers cap
  nicUser : Numbers cap
  kernelUser : Numbers cap
  strayed : Bool

/-- `behind` stands for the entries 0 and 2 where the data end before them. -/
def printTimeOn (ts : Option (List Timespec)) (behind : Timespec × Timespec) (timeUser : Timeval) (s : Memory cap) :
    Option (Memory cap) :=
  match ts with
  | none => some s
  | some ts =>
    let ts0 := (ts[0]?).getD behind.1
    let ts2 := (ts[2]?).getD behind.2
    let diffNicKernel := (ts0.tvSec - ts2.tvSec) * 1000000000 + (ts0.tvNsec - ts2.tvNsec)
    let diffKernelUser := (timeUser.tvSec - ts0.tvSec) * 1000000000 + (timeUser.tvUsec * 1000 - ts0.tvNsec)
    let diffNicUser := (timeUser.tvSec - ts2.tvSec) * 1000000000 + (timeUser.tvUsec * 1000 - ts2.tvNsec)
    let totalReceived := s.totalReceived + 1
    (s.nicKernel.put s.totalReceived diffNicKernel).bind fun nicKernel =>
      (s.nicUser.put totalReceived diffNicUser).bind fun nicUser =>
        (s.kernelUser.put totalReceived diffKernelUser).map fun kernelUser =>
          ⟨totalReceived, nicKernel, nicUser, kernelUser,
            s.strayed || !decide (Inside cap s.totalReceived.toNat ∧ Inside cap totalReceived.toNat)⟩

inductive OutcomeOn (cap : Nat) where
  | returned (got : Int) (st : Memory cap) (packet : Option Packet)
  | exited (st : Memory cap)
  | faulted

def doRecvOn (e : Endian) (r : Call) (behind : Timespec × Timespec) (s : Memory cap) : OutcomeOn cap :=
  if r.got = 0 ∧ r.eagain then .returned 0 s none
  else
    let mdelayhdr := Mdelayhdr.ofBytes e r.received
    match printTimeOn (retrieveTimestamp r.cmsgs) behind r.timeUser s with
    | none => .faulted
    | some s =>
      if 0 ≤ r.got ∧ r.sendto then
        .returned r.got s (some ⟨ntohl e mdelayhdr.seq, r.got, r.received.take r.got.toNat⟩)
      else .exited s

structure LoopOn (cap : Nat) where
  status : LoopStatus
  pktNum : BitVec 32
  st : Memory cap
  packets : List Packet

def LoopOn.enter (st : Memory cap) : LoopOn cap := ⟨.running, 1, st, []⟩

/-- `Configuration.turn` with `doRecvOn`. Only an access outside the arrays stops `print_time`. -/
def Configuration.turnOn (e : Endian) (cfg : Configuration) (l : LoopOn cfg.entries)
    (input : Call × Timespec × Timespec) : Option (LoopOn cfg.entries) :=
  if l.status = .running then
    match doRecvOn e input.1 input.2 l.st with
    | .returned got st packet =>
      let packets := l.packets ++ packet.toList
      if got = 0 ∧ cfg.cfgProtocol = .tcp then some ⟨.left, l.pktNum, st, packets⟩
      else if l.pktNum < cfg.cfgMaxPackets ∨ cfg.cfgMaxPackets = 0 then
        some ⟨.running, l.pktNum + 1, st, packets⟩
      else some ⟨.left, l.pktNum + 1, st, packets⟩
    | .exited st => some { l with status := .exited, st := st }
    | .faulted => some { l with status := .faulted, st := { l.st with strayed := true } }
  else none

/-- The contents of `latency.txt`, whichever entries `total_received` makes `main` read. -/
def Memory.file (s : Memory cap) : Option (List Char) :=
  ((List.range s.totalReceived.toNat).mapM fun (i : Nat) => do
    let nicUser ← read s.nicUser.entries s.nicUser.around i
    let nicKernel ← read s.nicKernel.entries s.nicKernel.around i
    let kernelUser ← read s.kernelUser.entries s.kernelUser.around i
    return line nicUser nicKernel kernelUser).map List.flatten

end Rx

/-! ### The reference measurement -/

namespace Reference

/-- `Sys` with the receiver that goes on. -/
structure SysOn (c : Setup) where
  thread : RefSender.SendPackets
  down : List (List Byte)
  rx : Rx.LoopOn c.receiver.entries
  up : List (List Byte)
  main : RefSender.Main

variable {c : Setup}

def SysOn.start (c : Setup) (memory : Rx.Memory c.receiver.entries) (buf : List Byte) : SysOn c where
  thread := RefSender.SendPackets.enter c.senderEndian
  down := []
  rx := Rx.LoopOn.enter memory
  up := []
  main := c.sender.enter buf

def SysOn.step (s : SysOn c) (input : Label × Timespec × Timespec) : Option (SysOn c) :=
  match input.1 with
  | .send tv =>
    if s.thread.i < c.sender.cfgMaxPackets.toNat ∧ s.main.status ≠ .exited then
      let thread := s.thread.iterate c.senderEndian tv
      some { s with thread := thread, down := s.down ++ [thread.buffer] }
    else none
  | .arrive i src cmsgs call =>
    (s.down[i]?.bind c.accepts).bind fun data =>
      (c.receiver.turnOn c.receiverEndian s.rx ({ call with recvmsg := .message data src cmsgs }, input.2)).map fun rx =>
        { s with
          down := s.down.eraseIdx i
          rx := rx
          up := s.up ++ (rx.packets.drop s.rx.packets.length).map Rx.Packet.datagram }
  | .receive i tv =>
    s.up[i]?.bind fun bytes =>
      (c.sender.turn c.senderEndian (.message bytes) tv s.main).map fun main =>
        { s with up := s.up.eraseIdx i, main := main }
  | .dropDown i => if i < s.down.length then some { s with down := s.down.eraseIdx i } else none
  | .dropUp i => if i < s.up.length then some { s with up := s.up.eraseIdx i } else none
  | .dupDown i => s.down[i]?.map fun frame => { s with down := s.down ++ [frame] }
  | .dupUp i => s.up[i]?.map fun bytes => { s with up := s.up ++ [bytes] }

end Reference

end Mdelay
