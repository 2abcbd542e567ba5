import Mdelay.Model.Program

/-!
# master.c
-/

namespace Mdelay.Master
open ByteOrder

/-- `calloc(100, sizeof(struct p2pdelay))` -/
abbrev entries : Nat := 100

def doRecv (e : Endian) (k : Stack) (r : Recvmsg) (m : Measurements entries) :
    DoRecv (Measurements entries) :=
  let got := r.got
  if got = 0 then .returned 0 m
  else
    let mdelayhdr := Mdelayhdr.ofBytes e (r.buffer k)
    -- `int pktseq`: the 32 bits are read as a signed number.
    let pktseq := (ntohl e mdelayhdr.seq).toInt
    let t4 := ntoh64 e mdelayhdr.t4
    match PktType.ofCode mdelayhdr.type with
    | some .delayResp =>
      match (retrieveTimestamp (r.control k)).bind (·[2]?) with
      | some ts => .written got (m.setRecv pktseq ts.nanos)
      | none => .faulted
    | some .delayRespFollowUp => .written got (m.count.setSent pktseq t4)
    | _ => .exited

/-- `measure_number` is an unsigned int, zero extended for the comparison with the counter. -/
def program (e : Endian) (measureNumber : BitVec 32) : Program where
  cap := entries
  State := Measurements entries
  start := .calloc entries
  measurements := id
  doRecv := doRecv e
  bound := measureNumber.setWidth 64
  allocated := true
  event := .delayResp
  followUp := .delayRespFollowUp
  stamp := Header.t4

/-- The call in `send_packets`: `measure_number` becomes the `int N`. -/
def sendPackets (slave : SockaddrIn) (measureNumber : BitVec 32) : Sender :=
  sendUdpPacketsTimestamp slave .delayReq payloadSize measureNumber.toInt 0

end Mdelay.Master
