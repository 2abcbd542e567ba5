import Mdelay.Proofs.Calls
import Mdelay.Proofs.Recording

/-!
# One datagram of the peer

What `do_recv` of either program does with an event or a follow-up of the other.
-/

namespace Mdelay
open ByteOrder TwoStep

variable {cap : Nat}

def Role.code (r : Role) (followUp : Bool) : BitVec 8 :=
  match r, followUp with
  | .master, false => PktType.delayReq.code
  | .master, true => PktType.delayReqFollowUp.code
  | .slave, false => PktType.delayResp.code
  | .slave, true => PktType.delayRespFollowUp.code

@[simp] theorem eventHeader_type (r : Role) (seq : BitVec 32) (user : BitVec 64) :
    (r.eventHeader seq user).type = r.code false := by
  cases r <;> rfl

@[simp] theorem followUpHeader_type (r : Role) (seq : BitVec 32) (user nic : BitVec 64) :
    (r.followUpHeader seq user nic).type = r.code true := by
  cases r <;> rfl

@[simp] theorem eventHeader_seq (r : Role) (seq : BitVec 32) (user : BitVec 64) :
    (r.eventHeader seq user).seq = seq := by
  cases r <;> rfl

@[simp] theorem followUpHeader_seq (r : Role) (seq : BitVec 32) (user nic : BitVec 64) :
    (r.followUpHeader seq user nic).seq = seq := by
  cases r <;> rfl

theorem full_message (h : Header) (size : Nat) (fill : Byte) : 40 ≤ (h.message size fill).length := by
  rw [Header.message, List.length_append, Header.length_wire]
  exact Nat.le_add_right 40 _

theorem message_ne_nil (h : Header) (size : Nat) (fill : Byte) : h.message size fill ≠ [] := by
  intro empty
  have full := full_message h size fill
  rw [empty] at full
  cases full

theorem toNat_seq {k : Nat} (small : k < 2 ^ 32) : (BitVec.ofNat 32 k).toNat = k := by
  rw [BitVec.toNat_ofNat]
  exact Nat.mod_eq_of_lt small

variable {k : Nat} {user : BitVec 64} {rec : Recorder Timespec}

/-! ### The master -/

theorem toInt_seq (small : k < Master.entries) : (BitVec.ofNat 32 k).toInt = k := by
  have word := toNat_seq (show k < 2 ^ 32 by change k < 100 at small; omega)
  rw [BitVec.toInt_eq_toNat_of_lt (by change k < 100 at small; omega), word]

theorem Master.receive_event (e : Endian) (stack : Stack) (size : Nat) (fill : Byte) (src : SockaddrIn)
    {cmsgs : List Cmsghdr} {nic : Timespec} (read : nicTime cmsgs = some nic) {m : Measurements Master.entries}
    (rep : Represents Timespec.nanos m rec) (small : k < Master.entries) :
    ∃ got m', 0 < got ∧
      Master.doRecv e stack
        (.message ((Role.slave.eventHeader (BitVec.ofNat 32 k) user).message size fill) src cmsgs) m = .returned got m' ∧
      Represents Timespec.nanos m' (rec.apply (.event k nic)) := by
  obtain ⟨m', written, rep'⟩ := represents_take rep (h := .event k nic) small
  have full := full_message (Role.slave.eventHeader (BitVec.ofNat 32 k) user) size fill
  have nonempty := message_ne_nil (Role.slave.eventHeader (BitVec.ofNat 32 k) user) size fill
  refine ⟨_, m', got_pos _ src cmsgs nonempty, ?_, rep'⟩
  rw [Master.doRecv_message e stack src cmsgs full, decode_message, read, eventHeader_seq, toInt_seq small]
  change DoRecv.written _ (m.take (.event k nic.nanos)) = _
  change m.take (.event k nic.nanos) = _ at written
  rw [written]
  rfl

theorem Master.receive_followUp (e : Endian) (stack : Stack) (size : Nat) (fill : Byte) (src : SockaddrIn)
    (cmsgs : List Cmsghdr) {t : Timespec} {m : Measurements Master.entries}
    (rep : Represents Timespec.nanos m rec) (small : k < Master.entries) :
    ∃ got m', 0 < got ∧
      Master.doRecv e stack
        (.message ((Role.slave.followUpHeader (BitVec.ofNat 32 k) user t.nanos).message size fill) src cmsgs) m =
          .returned got m' ∧
      Represents Timespec.nanos m' (rec.apply (.followUp k t)) := by
  obtain ⟨m', written, rep'⟩ := represents_take rep (h := .followUp k t) small
  have full := full_message (Role.slave.followUpHeader (BitVec.ofNat 32 k) user t.nanos) size fill
  have nonempty := message_ne_nil (Role.slave.followUpHeader (BitVec.ofNat 32 k) user t.nanos) size fill
  refine ⟨_, m', got_pos _ src cmsgs nonempty, ?_, rep'⟩
  rw [Master.doRecv_message e stack src cmsgs full, decode_message]
  change DoRecv.written _ (m.count.setSent (BitVec.ofNat 32 k).toInt t.nanos) = _
  rw [toInt_seq small]
  change DoRecv.written _ (m.take (.followUp k t.nanos)) = _
  change m.take (.followUp k t.nanos) = _ at written
  rw [written]
  rfl

/-! ### The slave -/

def Slave.State.Peer (e : Endian) (addr : SockaddrIn) (s : Slave.State cap) : Prop :=
  s.meas.totalMeasurements ≠ 0 →
    s.remoteIp = true ∧ s.ntoaBuffer = inetNtoa e addr.sinAddr ∧ s.remotePort = ntohs e addr.sinPort

theorem Slave.recordPeer_of_peer (e : Endian) {addr : SockaddrIn} {s : Slave.State cap} (peer : s.Peer e addr) :
    ∃ s', s.recordPeer e addr = some (s', addr) ∧ s'.meas = s.meas ∧
      s'.remoteIp = true ∧ s'.ntoaBuffer = inetNtoa e addr.sinAddr ∧ s'.remotePort = ntohs e addr.sinPort := by
  unfold Slave.State.recordPeer
  split
  · exact ⟨_, rfl, rfl, rfl, rfl, rfl⟩
  · rename_i counted
    obtain ⟨set, ip, port⟩ := peer counted
    refine ⟨s, ?_, rfl, set, ip, port⟩
    rw [if_pos set, ip, port, inetAddr_inetNtoa, ntohs_htons]

theorem Slave.receive_event (e : Endian) (stack : Stack) (size : Nat) (fill : Byte) {addr : SockaddrIn}
    {cmsgs : List Cmsghdr} {nic : Timespec} (read : nicTime cmsgs = some nic) {s : Slave.State cap}
    (rep : Represents Timespec.nanos s.meas rec) (small : k < cap) (word : k < 2 ^ 32) (peer : s.Peer e addr) :
    ∃ got s', 0 < got ∧
      Slave.doRecv e stack
        (.message ((Role.master.eventHeader (BitVec.ofNat 32 k) user).message size fill) addr cmsgs) s =
          .returned got s' ∧
      Represents Timespec.nanos s'.meas (rec.apply (.event k nic)) ∧ s'.Peer e addr := by
  obtain ⟨s', recorded, same, peer'⟩ := Slave.recordPeer_of_peer e peer
  obtain ⟨m', written, rep'⟩ := represents_take rep (h := .event k nic) small
  have full := full_message (Role.master.eventHeader (BitVec.ofNat 32 k) user) size fill
  have nonempty := message_ne_nil (Role.master.eventHeader (BitVec.ofNat 32 k) user) size fill
  refine ⟨_, { s' with meas := m' }, got_pos _ addr cmsgs nonempty, ?_, rep',
    fun _ => peer'⟩
  rw [Slave.doRecv_message e stack addr cmsgs full, recorded, decode_message, read]
  dsimp only
  rw [eventHeader_seq, toNat_seq word, same]
  change DoRecv.written _ ((s.meas.take (.event k nic.nanos)).map _) = _
  change s.meas.take (.event k nic.nanos) = _ at written
  rw [written]
  rfl

theorem Slave.receive_followUp (e : Endian) (stack : Stack) (size : Nat) (fill : Byte) {addr : SockaddrIn}
    (cmsgs : List Cmsghdr) {t : Timespec} {s : Slave.State cap}
    (rep : Represents Timespec.nanos s.meas rec) (small : k < cap) (word : k < 2 ^ 32) (peer : s.Peer e addr) :
    ∃ got s', 0 < got ∧
      Slave.doRecv e stack
        (.message ((Role.master.followUpHeader (BitVec.ofNat 32 k) user t.nanos).message size fill) addr cmsgs) s =
          .sending got s' (sendUdpPacketsTimestamp addr Role.slave.pkttype Role.slave.pktsize 1 (BitVec.ofNat 32 k)) ∧
      Represents Timespec.nanos s'.meas (rec.apply (.followUp k t)) ∧ s'.Peer e addr := by
  obtain ⟨s', recorded, same, peer'⟩ := Slave.recordPeer_of_peer e peer
  obtain ⟨m', written, rep'⟩ := represents_take rep (h := .followUp k t) small
  have full := full_message (Role.master.followUpHeader (BitVec.ofNat 32 k) user t.nanos) size fill
  have nonempty := message_ne_nil (Role.master.followUpHeader (BitVec.ofNat 32 k) user t.nanos) size fill
  refine ⟨_, { s' with meas := m' }, got_pos _ addr cmsgs nonempty, ?_, rep',
    fun _ => peer'⟩
  rw [Slave.doRecv_message e stack addr cmsgs full, recorded, decode_message]
  change s.meas.count.setSent k t.nanos = _ at written
  dsimp only
  rw [followUpHeader_seq, toNat_seq word, same, Role.followUpHeader, written]
  rfl

end Mdelay
