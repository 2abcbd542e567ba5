import Mdelay.Model.Program
import Mdelay.Proofs.HeaderRoundTrip

/-!
# What send_udp_packets_timestamp sends

The messages of one iteration, in the words of the header they carry.
-/

namespace Mdelay
open ByteOrder

def Role.pkttype : Role → PktType
  | .master => .delayReq
  | .slave => .delayResp

def Role.peer : Role → Role
  | .master => .slave
  | .slave => .master

/-- The header of an event; `user` is the time `gettimeofday` gave. -/
def Role.eventHeader (role : Role) (seq : BitVec 32) (user : BitVec 64) : Header :=
  match role with
  | .master => ⟨seq, PktType.delayReq.code, user, 0, 0, 0⟩
  | .slave => ⟨seq, PktType.delayResp.code, 0, 0, user, 0⟩

def Role.followUpHeader (role : Role) (seq : BitVec 32) (user nic : BitVec 64) : Header :=
  match role with
  | .master => ⟨seq, PktType.delayReqFollowUp.code, user, nic, 0, 0⟩
  | .slave => ⟨seq, PktType.delayRespFollowUp.code, 0, 0, user, nic⟩

def Role.eventFill : Role → Byte
  | .master => 0x41
  | .slave => 0x43

def Role.followUpFill : Role → Byte
  | .master => 0x42
  | .slave => 0x44

def Header.message (h : Header) (size : Nat) (fill : Byte) : List Byte :=
  h.wire 0 ++ List.replicate (size - sizeofMdelayhdr) fill

theorem length_message (h : Header) {size : Nat} (fill : Byte) (room : sizeofMdelayhdr ≤ size) :
    (h.message size fill).length = size := by
  rw [Header.message, List.length_append, Header.length_wire, List.length_replicate]
  exact Nat.add_sub_cancel' room

theorem decode_message (e : Endian) (h : Header) (size : Nat) (fill : Byte) : decode e (h.message size fill) = h :=
  decode_wire e h 0 _

theorem hton64_zero (e : Endian) : hton64 e 0 = 0 := by cases e <;> decide

theorem transmit_message (e : Endian) (x : Sender) (h : Header) (fill : Byte) (pc : SendPc) :
    x.transmit e (h.toNetwork e 0) fill pc =
      ({ x with mdelayhdr := h.toNetwork e 0, payload := h.message x.pktsize fill, pc := pc },
        some (h.message x.pktsize fill)) := by
  have payload : memcpy (List.replicate x.pktsize fill) ((h.toNetwork e 0).bytes e) = h.message x.pktsize fill := by
    rw [bytes_toNetwork, memcpy, Header.length_wire, List.drop_replicate]
    rfl
  simp only [Sender.transmit, payload]

theorem sendEvent_message {role : Role} (e : Endian) (tv : Timeval) {x : Sender} (kind : x.pkttype = role.pkttype) :
    let h := role.eventHeader x.currentSeq tv.nanos
    x.sendEvent e tv =
      ({ x with
          mdelayhdr := h.toNetwork e 0
          payload := h.message x.pktsize role.eventFill
          pc := .kernelRead }, some (h.message x.pktsize role.eventFill)) := by
  intro h
  rw [← transmit_message]
  cases role <;>
    simp only [Sender.sendEvent, kind, Role.pkttype, h, Role.eventHeader, Header.toNetwork, hton64_zero,
      Role.eventFill, Mdelayhdr.zero]

theorem sendFollowUp_message {role : Role} (e : Endian) {x : Sender} {seq : BitVec 32} {user : BitVec 64}
    (kind : x.pkttype = role.pkttype) (holds : x.mdelayhdr = (role.eventHeader seq user).toNetwork e 0) :
    let h := role.followUpHeader seq user x.ts2.nanos
    x.sendFollowUp e =
      ({ x with
          mdelayhdr := h.toNetwork e 0
          payload := h.message x.pktsize role.followUpFill
          pc := .drainKernel }, some (h.message x.pktsize role.followUpFill)) := by
  intro h
  rw [← transmit_message]
  cases role <;>
    simp only [Sender.sendFollowUp, kind, Role.pkttype, holds, h, Role.eventHeader, Role.followUpHeader,
      Header.toNetwork, hton64_zero, Role.followUpFill]

end Mdelay
