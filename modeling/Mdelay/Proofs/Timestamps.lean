import Mdelay.Proofs.Index
import Mdelay.Proofs.Simulation

/-!
# Every recorded timestamp was seen

Over a network that loses, duplicates and reorders datagrams, neither program exits on a datagram
or indexes past `n`, and an entry of either array holds 0 or a time some NIC has stamped.
-/

namespace Mdelay
open ByteOrder TwoStep Transition

variable {c : Config} {n : Nat} {positive : Prop} {s : Sys c} {a : Exchange Timespec}

/-! ### The trace of the system and that of the exchange -/

theorem code_inj {r : Role} {followUp followUp' : Bool} (same : r.code followUp = r.code followUp') :
    followUp = followUp' := by
  cases r <;> cases followUp <;> cases followUp' <;> first | rfl | (revert same; decide)

theorem sighted_inj {o o' : Sighting Timespec} (small : o.seq < 2 ^ 32) (small' : o'.seq < 2 ^ 32)
    (same : sighted o = sighted o') : o = o' := by
  obtain ⟨side, sent, followUp, seq, time⟩ := o
  obtain ⟨side', sent', followUp', seq', time'⟩ := o'
  dsimp only at small small'
  obtain ⟨host, rfl, type, number, rfl⟩ := Obs.mk.inj same
  obtain rfl : side = side' := by rw [← side_playedBy side, host, side_playedBy]
  obtain rfl : followUp = followUp' := code_inj type
  obtain rfl : seq = seq' := by rw [← toNat_seq small, number, toNat_seq small']
  rfl

theorem mem_trace (started : c.Started n) (refines : Refines c n positive s a) {o : Sighting Timespec}
    (small : o.seq < n) : sighted o ∈ s.trace ↔ o ∈ a.trace := by
  have word {k : Nat} (small : k < n) : k < 2 ^ 32 := by
    have entries : n ≤ 100 := started.entries
    omega
  rw [refines.trace, List.mem_map]
  constructor
  · rintro ⟨o', member, same⟩
    have same := sighted_inj (word (refines.traced.numbered.trace o' member)) (word small) same
    rwa [← same]
  · intro member
    exact ⟨o, member, rfl⟩

/-- The only time at which the NIC of `host` has stamped the packet of the type and the number. -/
def Sys.Only (s : Sys c) (host : Role) (sent : Bool) (type : PktType) (k : Nat) (t : Timespec) : Prop :=
  ∀ u, ⟨host, sent, type.code, BitVec.ofNat 32 k, u⟩ ∈ s.trace ↔ u = t

theorem only_sighted (started : c.Started n) (refines : Refines c n positive s a) {p : Side} {sent followUp : Bool}
    {k : Nat} (small : k < n) {t : Timespec} (only : Exchange.Only a.trace p sent followUp k t) (u : Timespec) :
    sighted ⟨p, sent, followUp, k, u⟩ ∈ s.trace ↔ u = t :=
  (mem_trace started refines small).trans (only u)

/-- The slave sent the DELAY_RESP at `t`, and the last datagram it had received was the
DELAY_REQ_FOLLOW_UP of the same number, which the master had sent. -/
def Sys.Answer (s : Sys c) (k : Nat) (t : Timespec) : Prop :=
  ∃ before between quiet after u v,
    s.trace = before ++ ⟨.master, true, PktType.delayReqFollowUp.code, BitVec.ofNat 32 k, u⟩ ::
      (between ++ ⟨.slave, false, PktType.delayReqFollowUp.code, BitVec.ofNat 32 k, v⟩ ::
        (quiet ++ ⟨.slave, true, PktType.delayResp.code, BitVec.ofNat 32 k, t⟩ :: after)) ∧
    ∀ o ∈ quiet, ¬ (o.host = .slave ∧ o.sent = false)

theorem answer_sighted (refines : Refines c n positive s a) {k : Nat} {t : Timespec}
    (answer : Exchange.Answer a.trace k t) : s.Answer k t := by
  obtain ⟨pre, after, split, before, between, quiet, u, v, rfl, silent⟩ := answer
  refine ⟨before.map sighted, between.map sighted, quiet.map sighted, after.map sighted, u, v, ?_, ?_⟩
  · rw [refines.trace, split]
    simp only [List.map_append, List.map_cons, List.append_assoc, List.cons_append]
    rfl
  · intro o member
    obtain ⟨o', member', rfl⟩ := List.mem_map.mp member
    rintro ⟨host, received⟩
    refine silent o' member' ⟨?_, received⟩
    rw [← side_playedBy o'.side]
    exact congrArg Role.side host

/-! ### No exit -/

theorem alive_of_refines (refines : Refines c n positive s a) (r : Role) : (s.host r).alive = true := by
  have host := refines.host r
  have calls : (s.host r).sender.all (fun x => x.pc ≠ .exited && x.pc ≠ .faulted) = true := by
    have sends := host.sends
    cases sender : (s.host r).sender with
    | none => rfl
    | some x =>
      rw [sender] at sends
      have stands := sends.stands
      rw [Sender.Stands] at stands
      cases pc : x.pc with
      | exited | faulted =>
        rw [pc] at stands
        exact stands.elim
      | _ => simp [pc]
  rw [Host.alive, calls, Bool.and_true]
  cases host.loops with
  | running status => simp [status]
  | left status => simp [status]

theorem pktseq_message (r : Role) (e : Endian) (k : Stack) {bytes : List Byte} (src : SockaddrIn)
    (cmsgs : List Cmsghdr) (full : 40 ≤ bytes.length) {j : Nat} (seq : (decode .big bytes).seq = BitVec.ofNat 32 j)
    (small : j < 100) : r.pktseq e ((Recvmsg.message bytes src cmsgs).buffer k) = j := by
  rw [← decode_buffer e k src cmsgs full] at seq
  cases r with
  | master =>
    change (decode e _).seq.toInt = j
    rw [seq, toInt_seq small]
  | slave =>
    change (((decode e _).seq.toNat : Nat) : Int) = j
    rw [seq, toNat_seq (by omega)]

theorem reaches_of_refines (started : c.Started n) (refines : Refines c n positive s a) {d : Datagram}
    (member : d ∈ s.net) {r : Role}
    (reaches : d.dst = c.address r) (k : Stack) (cmsgs : List Cmsghdr) :
    let buffer := (Recvmsg.message d.bytes d.src cmsgs).buffer k
    (PktType.ofCode (Mdelayhdr.ofBytes (c.endian r) buffer).type = some (c.program r).event ∨
        PktType.ofCode (Mdelayhdr.ofBytes (c.endian r) buffer).type = some (c.program r).followUp) ∧
      0 ≤ r.pktseq (c.endian r) buffer ∧ r.pktseq (c.endian r) buffer < n := by
  intro buffer
  obtain ⟨m, member', carries⟩ := Related.mem_left refines.net member
  obtain rfl : r = playedBy m.dest := address_inj (reaches.symm.trans carries.dst)
  have small : m.seq < n := refines.traced.numbered.net m member'
  have entries : n ≤ 100 := started.entries
  obtain ⟨user, size, fill, content⟩ := carries.bytes
  have full : 40 ≤ d.bytes.length := content ▸ full_message _ size fill
  obtain ⟨type, seq⟩ := decode_carried carries
  rw [← decode_buffer (c.endian (playedBy m.dest)) k d.src cmsgs full] at type
  have number := pktseq_message (playedBy m.dest) (c.endian (playedBy m.dest)) k d.src cmsgs full seq (by omega)
  refine ⟨?_, ?_, ?_⟩
  · rw [PktType.ofCode_eq_some, PktType.ofCode_eq_some, event_code, followUp_code]
    cases stamped : m.stamp.isSome with
    | false =>
      rw [stamped] at type
      exact Or.inl type
    | true =>
      rw [stamped] at type
      exact Or.inr type
  · rw [number]
    exact Int.natCast_nonneg _
  · rw [number]
    exact_mod_cast small

/-! ### Entries -/

theorem entry_of_refines (refines : Refines c n positive s a) (r : Role) (k : Fin (c.program r).cap) :
    let d := ((c.program r).measurements (s.host r).loop.st).p2pdelayMeasurements k
    (d.sentTt = 0 ∨ ∃ t, (a.recorder r.side).sent k = some t ∧ d.sentTt = t.nanos) ∧
      (d.recvTt = 0 ∨ ∃ t, (a.recorder r.side).recv k = some t ∧ d.recvTt = t.nanos) := by
  intro d
  have entry : d = _ := (refines.host r).meas.entry k
  rw [entry]
  constructor
  · cases (a.recorder r.side).sent k with
    | none => exact Or.inl rfl
    | some t => exact Or.inr ⟨t, rfl, rfl⟩
  · cases (a.recorder r.side).recv k with
    | none => exact Or.inl rfl
    | some t => exact Or.inr ⟨t, rfl, rfl⟩

/-- What the arrays hold in any state that any network can lead to. -/
theorem recorded_timestamps (started : c.Started n) (var : Role → Int) (ls : List Label)
    (run : Run Sys.step Any (Sys.start c var) ls s) :
    (∀ r, (s.host r).alive = true) ∧
    (∀ r, ∀ d ∈ s.net, d.dst = c.address r → ∀ (k : Stack) (cmsgs : List Cmsghdr),
      let buffer := (Recvmsg.message d.bytes d.src cmsgs).buffer k
      (PktType.ofCode (Mdelayhdr.ofBytes (c.endian r) buffer).type = some (c.program r).event ∨
          PktType.ofCode (Mdelayhdr.ofBytes (c.endian r) buffer).type = some (c.program r).followUp) ∧
        0 ≤ r.pktseq (c.endian r) buffer ∧ r.pktseq (c.endian r) buffer < n) ∧
    (∀ k : Fin (c.program .slave).cap,
      let d := ((c.program .slave).measurements (s.host .slave).loop.st).p2pdelayMeasurements k
      (d.sentTt = 0 ∨ ∃ t, s.Only .master true .delayReq k t ∧ d.sentTt = t.nanos) ∧
        (d.recvTt = 0 ∨
          ∃ t, ⟨.slave, false, PktType.delayReq.code, BitVec.ofNat 32 k, t⟩ ∈ s.trace ∧ d.recvTt = t.nanos)) ∧
    (∀ k : Fin (c.program .master).cap,
      let d := ((c.program .master).measurements (s.host .master).loop.st).p2pdelayMeasurements k
      (d.recvTt = 0 ∨
          ∃ t, ⟨.master, false, PktType.delayResp.code, BitVec.ofNat 32 k, t⟩ ∈ s.trace ∧ d.recvTt = t.nanos) ∧
        (d.sentTt = 0 ∨ ∃ t, s.Answer k t ∧ d.sentTt = t.nanos)) := by
  obtain ⟨a, refines⟩ := refines_any started run
  have traced := refines.traced
  have received {p : Side} {k : Nat} {t : Timespec} (recorded : (a.recorder p).recv k = some t) :
      sighted ⟨p, false, false, k, t⟩ ∈ s.trace := by
    have seen := traced.sourced.recv p k t recorded
    exact (mem_trace started refines (traced.numbered.trace _ seen)).mpr seen
  refine ⟨alive_of_refines refines, fun r d member reaches => reaches_of_refines started refines member reaches,
    fun k => ?_, fun k => ?_⟩
  · obtain ⟨sent, recv⟩ := entry_of_refines refines .slave k
    refine ⟨sent.imp_right ?_, recv.imp_right ?_⟩
    · rintro ⟨t, recorded, stored⟩
      have seen := traced.sourced.sent .responder k t recorded
      have once := Exchange.sent_nodup traced.orderly (p := .initiator) List.nodup_range false
      exact ⟨t, only_sighted started refines (traced.numbered.trace _ seen)
        (Exchange.only_of_nodup once seen), stored⟩
    · rintro ⟨t, recorded, stored⟩
      exact ⟨t, received recorded, stored⟩
  · obtain ⟨sent, recv⟩ := entry_of_refines refines .master k
    refine ⟨recv.imp_right ?_, sent.imp_right ?_⟩
    · rintro ⟨t, recorded, stored⟩
      exact ⟨t, received recorded, stored⟩
    · rintro ⟨t, recorded, stored⟩
      exact ⟨t, answer_sighted refines (traced.answered.sent k t recorded), stored⟩

theorem recorded_timestamps_single : ∃ s,
    Run Sys.step Any (Sys.start .single fun _ => 1) (measurement ⟨7, 0⟩ 0) s ∧ (∀ r, (s.host r).alive = true) ∧
    ∀ k : Fin Master.entries,
      let d := ((Config.single.program .master).measurements (s.host .master).loop.st).p2pdelayMeasurements k
      d.sentTt = 0 ∨ ∃ t, s.Answer k t ∧ d.sentTt = t.nanos := by
  obtain ⟨s, run, -⟩ := run_measurement
  have any : Run Sys.step Any (Sys.start .single fun _ => 1) _ s := run_mono (fun _ _ _ => trivial) run
  obtain ⟨alive, -, -, master⟩ := recorded_timestamps started_single _ _ any
  exact ⟨s, any, alive, fun k => (master k).2⟩

end Mdelay
