import Mdelay.Model.Socket

/-!
# send_udp_packets_timestamp

The function as a machine that stops at each of its socket calls: two `sendto` and four loops that
read the error queue in every iteration.
-/

namespace Mdelay
open ByteOrder

inductive SendPc where
  | loopHead
  | kernelRead
  | nicRead
  | followUp
  | drainKernel
  | drainNic
  | returned
  | exited
  | faulted
  deriving DecidableEq

structure Sender where
  dsa : SockaddrIn
  pkttype : PktType
  pktsize : Nat
  n : Int
  seq : BitVec 32
  i : Nat
  mdelayhdr : Mdelayhdr
  payload : List Byte
  msg : Msghdr
  ts0 : Timespec
  ts2 : Timespec
  pc : SendPc

/-- The state a call starts in: cleared payload and header, an empty control buffer of 1024 bytes. -/
def sendUdpPacketsTimestamp (dsa : SockaddrIn) (pkttype : PktType) (pktsize : Nat) (n : Int)
    (seq : BitVec 32) : Sender where
  dsa := dsa
  pkttype := pkttype
  pktsize := pktsize
  n := n
  seq := seq
  i := 0
  mdelayhdr := .zero
  payload := List.replicate pktsize 0
  msg := ⟨[], 1024⟩
  ts0 := ⟨0, 0⟩
  ts2 := ⟨0, 0⟩
  pc := if 0 < n then .loopHead else .returned

def Sender.currentSeq (x : Sender) : BitVec 32 := x.seq + BitVec.ofNat 32 x.i

/-- `memset(payload, fill, pktsize)`, `memcpy` of the header and `sendto`. -/
def Sender.transmit (e : Endian) (x : Sender) (mdelayhdr : Mdelayhdr) (fill : Byte) (pc : SendPc) :
    Sender × Option (List Byte) :=
  let payload := memcpy (List.replicate x.pktsize fill) (mdelayhdr.bytes e)
  ({ x with mdelayhdr := mdelayhdr, payload := payload, pc := pc }, some payload)

/-- From the head of the loop through the first `sendto`; `tv` is what `gettimeofday` returns. -/
def Sender.sendEvent (e : Endian) (tv : Timeval) (x : Sender) : Sender × Option (List Byte) :=
  let mdelayhdr := { Mdelayhdr.zero with seq := htonl e x.currentSeq }
  let timestampNanos := tv.nanos
  match x.pkttype with
  | .delayReq =>
    x.transmit e { mdelayhdr with t1 := hton64 e timestampNanos, type := PktType.delayReq.code }
      0x41 .kernelRead
  | .delayResp =>
    x.transmit e { mdelayhdr with t3 := hton64 e timestampNanos, type := PktType.delayResp.code }
      0x43 .kernelRead
  | _ => ({ x with pc := .exited }, none)

/-- From the NIC timestamp through the second `sendto`. -/
def Sender.sendFollowUp (e : Endian) (x : Sender) : Sender × Option (List Byte) :=
  let timestampNanos := x.ts2.nanos
  match x.pkttype with
  | .delayReq =>
    x.transmit e
      { x.mdelayhdr with t2 := hton64 e timestampNanos, type := PktType.delayReqFollowUp.code }
      0x42 .drainKernel
  | .delayResp =>
    x.transmit e
      { x.mdelayhdr with t4 := hton64 e timestampNanos, type := PktType.delayRespFollowUp.code }
      0x44 .drainKernel
  | _ => ({ x with pc := .exited }, none)

inductive ErrqRead where
  | message (cmsgs : List Cmsghdr)
  | eagain
  | failure

def ErrqRead.msg (r : ErrqRead) (msg : Msghdr) : Msghdr :=
  match r with
  | .message cmsgs => msg.recv cmsgs
  | _ => msg

def Sender.advance (x : Sender) : Sender :=
  { x with i := x.i + 1, pc := if ((x.i + 1 : Nat) : Int) < x.n then .loopHead else .returned }

/-- One error-queue read and what follows it up to the next call. `EAGAIN` reads again; only the
first loop checks for a failure, after it has looked for the timestamp. -/
def Sender.readErrq (r : ErrqRead) (x : Sender) : Sender :=
  match r, x.pc with
  | .eagain, _ => x
  | .failure, .kernelRead => { x with pc := .exited }
  | r, .kernelRead =>
    let msg := r.msg x.msg
    match (retrieveTimestamp msg.control).bind (·[0]?) with
    | some ts => { x with msg := msg, ts0 := ts, pc := .nicRead }
    | none => { x with msg := msg, pc := .faulted }
  | r, .nicRead =>
    let msg := r.msg x.msg
    match (retrieveTimestamp msg.control).bind (·[2]?) with
    | some ts => { x with msg := msg, ts2 := ts, pc := .followUp }
    | none => { x with msg := msg, pc := .faulted }
  | r, .drainKernel => { x with msg := r.msg x.msg, pc := .drainNic }
  | r, .drainNic => { x with msg := r.msg x.msg }.advance
  | _, _ => x

end Mdelay
