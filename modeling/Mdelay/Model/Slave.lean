import Mdelay.Model.Program

/-!
# slave.c
-/

namespace Mdelay.Slave
open ByteOrder

/-- The counter and the array, the peer recorded in `cfg`, and the buffer `inet_ntoa` returns.
`remoteIp` says that `cfg->remote_ip` points to that buffer. -/
structure State (cap : Nat) where
  meas : Measurements cap
  remoteIp : Bool
  remotePort : BitVec 16
  ntoaBuffer : List Char

variable {cap : Nat}

/-- The peer is recorded until the counter leaves 0, and forced on every packet after that. -/
def State.recordPeer (e : Endian) (s : State cap) (hostAddress : SockaddrIn) :
    Option (State cap × SockaddrIn) :=
  if s.meas.totalMeasurements = 0 then
    some ({ s with
      remoteIp := true
      ntoaBuffer := inetNtoa e hostAddress.sinAddr
      remotePort := ntohs e hostAddress.sinPort }, hostAddress)
  else if s.remoteIp then
    some (s, ⟨inetAddr e s.ntoaBuffer, htons e s.remotePort⟩)
  else none

def doRecv (e : Endian) (k : Stack) (r : Recvmsg) (s : State cap) : DoRecv (State cap) :=
  let got := r.got
  if got = 0 then .returned 0 s
  else
    let mdelayhdr := Mdelayhdr.ofBytes e (r.buffer k)
    let pktseq := ntohl e mdelayhdr.seq
    let t2 := ntoh64 e mdelayhdr.t2
    let tsTmp := retrieveTimestamp (r.control k)
    match s.recordPeer e (r.hostAddress k) with
    | none => .faulted
    | some (s, hostAddress) =>
      match PktType.ofCode mdelayhdr.type with
      | some .delayReq =>
        match tsTmp.bind (·[2]?) with
        | some ts =>
          .written got ((s.meas.setRecv pktseq.toNat ts.nanos).map fun m => { s with meas := m })
        | none => .faulted
      | some .delayReqFollowUp =>
        match s.meas.count.setSent pktseq.toNat t2 with
        | some m =>
          .sending got { s with meas := m }
            (sendUdpPacketsTimestamp hostAddress .delayResp (payloadSize - 10) 1 pktseq)
        | none => .faulted
      | _ => .exited

/-- The number of entries `calloc(measure_number, sizeof(struct p2pdelay))` allocates. A negative
`measure_number` asks for more than any `size_t` product and gives NULL. -/
def entries (measureNumber : BitVec 32) : Nat := measureNumber.toInt.toNat

/-- `measure_number` is an int, sign extended for the comparison with the counter. -/
def program (e : Endian) (measureNumber : BitVec 32) : Program where
  cap := entries measureNumber
  State := State (entries measureNumber)
  start := ⟨.calloc (entries measureNumber), false, 0, []⟩
  measurements := State.meas
  doRecv := doRecv e
  bound := measureNumber.signExtend 64
  allocated := 0 ≤ measureNumber.toInt
  event := .delayReq
  followUp := .delayReqFollowUp
  stamp := Header.t2

end Mdelay.Slave
