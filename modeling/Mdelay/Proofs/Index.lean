import Mdelay.Proofs.Counter

/-!
# The index taken from the network

`do_recv` writes to the entry whose number the first four bytes of the datagram give. Nothing checks
it, so it is inside the array only when that number, in network order, is.
-/

namespace Mdelay
open ByteOrder TwoStep Transition

/-- `pktseq` as `do_recv` computes it: an int in the master, a uint32_t in the slave. -/
def Role.pktseq (role : Role) (e : Endian) (buffer : List Byte) : Int :=
  match role with
  | .master => (ntohl e (Mdelayhdr.ofBytes e buffer).seq).toInt
  | .slave => (ntohl e (Mdelayhdr.ofBytes e buffer).seq).toNat

theorem modify_eq_none {cap : Nat} {m : Measurements cap} {pktseq : Int} {f : P2pdelay → P2pdelay} :
    m.modify pktseq f = none ↔ ¬ (0 ≤ pktseq ∧ pktseq < cap) := by
  rw [Measurements.modify]
  split <;> simp_all

theorem faulted_of_written {σ : Type} {got : Int} {st : Option σ} :
    DoRecv.written got st = .faulted ↔ st = none := by
  cases st <;> simp [DoRecv.written]

theorem seq_of_front {bytes : List Byte} (full : 4 ≤ bytes.length) :
    (decode .big bytes).seq.toNat = ofBeBytes (bytes.take 4) := by
  have small := ofBeBytes_lt (bytes.take 4)
  rw [List.length_take, Nat.min_eq_left full] at small
  change (BitVec.ofNat 32 (ofBeBytes (bytes.take 4))).toNat = _
  rw [BitVec.toNat_ofNat]
  omega

theorem signed_inside_iff (v : BitVec 32) : (0 ≤ v.toInt ∧ v.toInt < (100 : Nat)) ↔ v.toNat < 100 := by
  have fits := v.isLt
  rw [BitVec.toInt_eq_toNat_cond]
  split <;> omega

theorem pktseq_inside_iff (role : Role) (e : Endian) (measureNumber : BitVec 32) (k : Stack) {bytes : List Byte}
    (src : SockaddrIn) (cmsgs : List Cmsghdr) (full : 40 ≤ bytes.length) :
    let pktseq := role.pktseq e ((Recvmsg.message bytes src cmsgs).buffer k)
    (0 ≤ pktseq ∧ pktseq < (role.program e measureNumber).cap) ↔
      ofBeBytes (bytes.take 4) < (role.program e measureNumber).cap := by
  intro pktseq
  have decoded := decode_buffer e k src cmsgs full
  rw [← seq_of_front (by omega), ← decoded]
  cases role with
  | master => exact signed_inside_iff _
  | slave =>
    change 0 ≤ (((decode e _).seq.toNat : Nat) : Int) ∧ _ ↔ _
    constructor
    · rintro ⟨-, inside⟩
      exact Int.ofNat_lt.mp inside
    · intro inside
      exact ⟨Int.natCast_nonneg _, Int.ofNat_lt.mpr inside⟩

/-- A datagram of the program's own types with a NIC receive time faults exactly when its index is
outside the array. -/
theorem Master.faulted_iff (e : Endian) (measureNumber : BitVec 32) (k : Stack) {bytes : List Byte}
    (src : SockaddrIn) {cmsgs : List Cmsghdr} (full : 40 ≤ bytes.length)
    (handled : (decode .big bytes).type = PktType.delayResp.code ∨
      (decode .big bytes).type = PktType.delayRespFollowUp.code)
    (timed : nicTime cmsgs ≠ none) (m : Measurements Master.entries) :
    (Master.program e measureNumber).doRecv k (.message bytes src cmsgs) m = .faulted ↔
      ¬ ofBeBytes (bytes.take 4) < Master.entries := by
  obtain ⟨ts, read⟩ := Option.ne_none_iff_exists'.mp timed
  have decided := Master.doRecv_message e k src cmsgs full m
  rw [← seq_of_front (by omega), ← signed_inside_iff]
  change Master.doRecv e k (.message bytes src cmsgs) m = .faulted ↔ _
  rcases handled with type | type
  · rw [PktType.ofCode_eq_some.mpr type, read] at decided
    exact decided ▸ faulted_of_written.trans modify_eq_none
  · rw [PktType.ofCode_eq_some.mpr type] at decided
    exact decided ▸ faulted_of_written.trans modify_eq_none

theorem Slave.faulted_iff (e : Endian) (measureNumber : BitVec 32) (k : Stack) {bytes : List Byte}
    (src : SockaddrIn) {cmsgs : List Cmsghdr} (full : 40 ≤ bytes.length)
    (handled : (decode .big bytes).type = PktType.delayReq.code ∨
      (decode .big bytes).type = PktType.delayReqFollowUp.code)
    (timed : nicTime cmsgs ≠ none) {s : Slave.State (Slave.entries measureNumber)} (ready : s.Ready) :
    (Slave.program e measureNumber).doRecv k (.message bytes src cmsgs) s = .faulted ↔
      ¬ ofBeBytes (bytes.take 4) < Slave.entries measureNumber := by
  obtain ⟨ts, read⟩ := Option.ne_none_iff_exists'.mp timed
  obtain ⟨s', host, recorded, -, -⟩ := Slave.recordPeer_of_ready e ready src
  have decided := Slave.doRecv_message e k src cmsgs full s
  rw [recorded] at decided
  rw [← seq_of_front (by omega)]
  have unsigned : (0 ≤ (((decode .big bytes).seq.toNat : Nat) : Int) ∧
      (((decode .big bytes).seq.toNat : Nat) : Int) < Slave.entries measureNumber) ↔
        (decode .big bytes).seq.toNat < Slave.entries measureNumber := by omega
  rw [← unsigned]
  change Slave.doRecv e k (.message bytes src cmsgs) s = .faulted ↔ _
  rcases handled with type | type
  · simp only [PktType.ofCode_eq_some.mpr type, read] at decided
    rw [decided, faulted_of_written, Option.map_eq_none_iff]
    exact modify_eq_none
  · simp only [PktType.ofCode_eq_some.mpr type] at decided
    rw [decided, ← modify_eq_none (m := s'.meas.count)
      (f := fun d => { d with sentTt := (decode .big bytes).t2 })]
    change _ ↔ s'.meas.count.setSent _ _ = none
    cases s'.meas.count.setSent (decode .big bytes).seq.toNat (decode .big bytes).t2 <;> simp

theorem turn_cases {p : Program} {l l' : p.Loop} {input : Stack × Recvmsg} (turned : p.turn l input = some l') :
    (∃ got st, (p.doRecv input.1 input.2 l.st).outcome = some (got, st) ∧ l' = p.afterRecv l got st) ∨
      l'.st = l.st := by
  have running := running_of_turn turned
  cases outcome : (p.doRecv input.1 input.2 l.st).outcome with
  | some result =>
    rw [turn_of_outcome running outcome] at turned
    exact Or.inl ⟨result.1, result.2, rfl, (Option.some.inj turned).symm⟩
  | none =>
    rw [Program.turn, if_pos running] at turned
    cases decided : p.doRecv input.1 input.2 l.st with
    | returned got st | sending got st call =>
      rw [decided] at outcome
      cases outcome
    | exited | faulted =>
      rw [decided] at turned
      obtain rfl := Option.some.inj turned
      exact Or.inr rfl

theorem Slave.ready_of_outcome {cap : Nat} {e : Endian} {k : Stack} {r : Recvmsg} {s s' : Slave.State cap}
    {got : Int} (ready : s.Ready) (outcome : (Slave.doRecv e k r s).outcome = some (got, s')) : s'.Ready := by
  rcases Slave.of_outcome outcome with ⟨-, rfl⟩ | ⟨u, host, m, recorded, rfl, -⟩
  · exact ready
  · obtain ⟨u', host', recorded', -, set⟩ := Slave.recordPeer_of_ready e ready (r.hostAddress k)
    obtain ⟨rfl, -⟩ := Prod.mk.inj (Option.some.inj (recorded.symm.trans recorded'))
    exact fun _ => set

theorem Slave.ready_of_run (e : Endian) (measureNumber : BitVec 32) {var : Int}
    {inputs : List (Stack × Recvmsg)} {l : (Slave.program e measureNumber).Loop}
    (run : Run (Slave.program e measureNumber).turn Any ((Slave.program e measureNumber).enter var) inputs l) :
    Slave.State.Ready l.st := by
  refine run_invariant (I := fun l => Slave.State.Ready l.st) ?_ (Slave.lawful e measureNumber).start.1 run
  intro l input l' ready _ turned
  rcases turn_cases turned with ⟨got, st, outcome, rfl⟩ | same
  · exact Slave.ready_of_outcome ready outcome
  · rw [same]
    exact ready

/-- In every state a program can reach, the index of a datagram of its own types is inside the
array exactly when the number in its first four bytes, in network order, is. -/
theorem index_inside_iff (role : Role) (e : Endian) (measureNumber : BitVec 32) (var : Int)
    (inputs : List (Stack × Recvmsg)) (l : (role.program e measureNumber).Loop)
    (run : Run (role.program e measureNumber).turn Any ((role.program e measureNumber).enter var) inputs l)
    (k : Stack) (bytes : List Byte) (src : SockaddrIn) (cmsgs : List Cmsghdr) (full : sizeofMdelayhdr ≤ bytes.length)
    (handled : (decode .big bytes).type = (role.program e measureNumber).event.code ∨
      (decode .big bytes).type = (role.program e measureNumber).followUp.code) :
    let p := role.program e measureNumber
    let pktseq := role.pktseq e ((Recvmsg.message bytes src cmsgs).buffer k)
    ((0 ≤ pktseq ∧ pktseq < p.cap) ↔ ofBeBytes (bytes.take 4) < p.cap) ∧
      (nicTime cmsgs ≠ none →
        (p.doRecv k (.message bytes src cmsgs) l.st = .faulted ↔ ¬ ofBeBytes (bytes.take 4) < p.cap)) := by
  intro p pktseq
  refine ⟨pktseq_inside_iff role e measureNumber k src cmsgs full, fun timed => ?_⟩
  cases role with
  | master => exact Master.faulted_iff e measureNumber k src full handled timed l.st
  | slave => exact Slave.faulted_iff e measureNumber k src full handled timed (Slave.ready_of_run e measureNumber run)

/-- A master started for 200 measurements gets the response to its request 100. -/
theorem index_outside_master_array :
    let p := Master.program .little 200
    let input := arrival (Role.slave.followUpHeader 100 0 0) ⟨0, 0⟩
    Role.master.pktseq .little (input.2.buffer input.1) = 100 ∧ p.cap = 100 ∧
      (p.turn (p.enter 1) input).map (·.status) = some .faulted := by
  intro p input
  exact ⟨by decide +kernel, rfl, by decide +kernel⟩

theorem index_inside_slave_array :
    let p := Slave.program .big 3
    let input := arrival (Role.master.eventHeader 2 0) ⟨0, 0⟩
    0 ≤ Role.slave.pktseq .big (input.2.buffer input.1) ∧
      Role.slave.pktseq .big (input.2.buffer input.1) < p.cap := by
  intro p input
  exact (index_inside_iff .slave .big 3 1 [] (p.enter 1) rfl .cleared
    ((Role.master.eventHeader 2 0).message sizeofMdelayhdr 0) ⟨0, 0⟩
    [⟨solSocket, soTimestamping, 48, [⟨0, 0⟩, ⟨0, 0⟩, ⟨0, 0⟩]⟩] (by decide) (Or.inl (by decide))).1.mpr
    (by decide)

end Mdelay
