import Mdelay.Library.Transition
import Mdelay.Model.System
import Mdelay.Proofs.Sending
import Mdelay.Protocol.Recorder

/-!
# Both programs record two-step measurements

`do_recv` of the master and of the slave takes a datagram of the program's own two types as one
half of a measurement, and its array with its counter represents a recorder.
-/

namespace Mdelay
open ByteOrder TwoStep Transition

variable {cap : Nat}

/-! ### What do_recv decodes -/

theorem slice_take {off n m : Nat} (bs : List Byte) (inside : off + n ≤ m) :
    slice off n (bs.take m) = slice off n bs := by
  rw [slice, slice, List.drop_take, List.take_take, Nat.min_eq_left (by omega)]

theorem decode_take (e : Endian) (bs : List Byte) : decode e (bs.take 40) = decode e bs := by
  simp only [decode, Mdelayhdr.ofBytes, slice_take bs (show 0 + 4 ≤ 40 by decide),
    slice_take bs (show 4 + 1 ≤ 40 by decide), slice_take bs (show 5 + 3 ≤ 40 by decide),
    slice_take bs (show 8 + 8 ≤ 40 by decide), slice_take bs (show 16 + 8 ≤ 40 by decide),
    slice_take bs (show 24 + 8 ≤ 40 by decide), slice_take bs (show 32 + 8 ≤ 40 by decide)]

theorem length_memcpy {dst src : List Byte} (fits : src.length ≤ dst.length) :
    (memcpy dst src).length = dst.length := by
  rw [memcpy, List.length_append, List.length_drop]
  omega

theorem decode_buffer (e : Endian) (k : Stack) {bytes : List Byte} (src : SockaddrIn)
    (cmsgs : List Cmsghdr) (full : 40 ≤ bytes.length) :
    decode e ((Recvmsg.message bytes src cmsgs).buffer k) = decode .big bytes := by
  have fits : (bytes.take payloadSize).length ≤ k.buffer.length := by
    rw [k.size, List.length_take]
    exact Nat.min_le_left _ _
  have front : ((Recvmsg.message bytes src cmsgs).buffer k).take 40 = bytes.take 40 := by
    rw [Recvmsg.buffer, memcpy, List.take_append_of_le_length, List.take_take]
    · rfl
    · rw [List.length_take, payloadSize]
      omega
  have size : ((Recvmsg.message bytes src cmsgs).buffer k).length = payloadSize := by
    rw [Recvmsg.buffer, length_memcpy fits, k.size]
  rw [decode_endian e (by rw [size]; decide), ← decode_take, front, decode_take]

theorem got_pos (bytes : List Byte) (src : SockaddrIn) (cmsgs : List Cmsghdr) (some : bytes ≠ []) :
    0 < (Recvmsg.message bytes src cmsgs).got := by
  have := List.length_pos_iff.mpr some
  rw [Recvmsg.got, List.length_take, payloadSize]
  omega

theorem slice_of_append {off n : Nat} {xs ys : List Byte} (inside : off + n ≤ xs.length) :
    slice off n (xs ++ ys) = slice off n xs := by
  rw [slice, slice, List.drop_append_of_le_length (by omega), List.take_append_of_le_length]
  rw [List.length_drop]
  omega

/-- The type and the number of a datagram of five bytes or more do not depend on the stack. -/
theorem front_of_message {e : Endian} (k : Stack) {bytes : List Byte} (src : SockaddrIn) (cmsgs : List Cmsghdr)
    (typed : 4 < bytes.length) :
    let buffer := (Recvmsg.message bytes src cmsgs).buffer k
    (Mdelayhdr.ofBytes e buffer).seq = (Mdelayhdr.ofBytes e bytes).seq ∧
      (Mdelayhdr.ofBytes e buffer).type = (Mdelayhdr.ofBytes e bytes).type := by
  intro buffer
  have room : 5 ≤ (bytes.take payloadSize).length := by
    rw [List.length_take, payloadSize]
    omega
  have front {off n : Nat} (inside : off + n ≤ 5) : slice off n buffer = slice off n bytes := by
    change slice off n (bytes.take payloadSize ++ _) = _
    rw [slice_of_append (by omega), slice_take bytes (inside.trans (by decide))]
  constructor
  · change BitVec.ofNat 32 (e.load (slice 0 4 buffer)) = BitVec.ofNat 32 (e.load (slice 0 4 bytes))
    rw [front (by decide)]
  · change BitVec.ofNat 8 (ofLeBytes (slice 4 1 buffer)) = BitVec.ofNat 8 (ofLeBytes (slice 4 1 bytes))
    rw [front (by decide)]

/-- The datagram is long enough to have a type. -/
def Recvmsg.Typed : Recvmsg → Prop
  | .error => False
  | .message bytes _ _ => 4 < bytes.length

theorem Master.doRecv_message (e : Endian) (k : Stack) {bytes : List Byte} (src : SockaddrIn)
    (cmsgs : List Cmsghdr) (full : 40 ≤ bytes.length) (m : Measurements Master.entries) :
    Master.doRecv e k (.message bytes src cmsgs) m =
      match PktType.ofCode (decode .big bytes).type with
      | some .delayResp =>
        match nicTime cmsgs with
        | some ts => .written (Recvmsg.message bytes src cmsgs).got
            (m.setRecv (decode .big bytes).seq.toInt ts.nanos)
        | none => .faulted
      | some .delayRespFollowUp => .written (Recvmsg.message bytes src cmsgs).got
          (m.count.setSent (decode .big bytes).seq.toInt (decode .big bytes).t4)
      | _ => .exited := by
  have positive := got_pos bytes src cmsgs (by rintro rfl; simp at full)
  rw [← decode_buffer e k src cmsgs full, Master.doRecv, if_neg (Int.ne_of_gt positive)]
  rfl

theorem Slave.doRecv_message (e : Endian) (k : Stack) {bytes : List Byte} (src : SockaddrIn)
    (cmsgs : List Cmsghdr) (full : 40 ≤ bytes.length) (s : Slave.State cap) :
    Slave.doRecv e k (.message bytes src cmsgs) s =
      match s.recordPeer e src with
      | none => .faulted
      | some (s, hostAddress) =>
        match PktType.ofCode (decode .big bytes).type with
        | some .delayReq =>
          match nicTime cmsgs with
          | some ts => .written (Recvmsg.message bytes src cmsgs).got
              ((s.meas.setRecv (decode .big bytes).seq.toNat ts.nanos).map fun m => { s with meas := m })
          | none => .faulted
        | some .delayReqFollowUp =>
          match s.meas.count.setSent (decode .big bytes).seq.toNat (decode .big bytes).t2 with
          | some m => .sending (Recvmsg.message bytes src cmsgs).got { s with meas := m }
              (sendUdpPacketsTimestamp hostAddress .delayResp (payloadSize - 10) 1
                (decode .big bytes).seq)
          | none => .faulted
        | _ => .exited := by
  have positive := got_pos bytes src cmsgs (by rintro rfl; simp at full)
  rw [← decode_buffer e k src cmsgs full, Slave.doRecv, if_neg (Int.ne_of_gt positive)]
  rfl

/-! ### The array as a recorder -/

def Measurements.take (m : Measurements cap) : Half (BitVec 64) → Option (Measurements cap)
  | .event k t => m.setRecv k t
  | .followUp k t => m.count.setSent k t

/-- The array holds the times of a recorder, 0 where nothing was recorded. -/
structure Represents {T : Type} (conv : T → BitVec 64) (m : Measurements cap) (r : Recorder T) : Prop where
  count : m.totalMeasurements = BitVec.ofNat 64 r.count
  entry : ∀ i : Fin cap, m.p2pdelayMeasurements i =
    ⟨(r.sent i).elim 0 conv, (r.recv i).elim 0 conv⟩

theorem represents_calloc {T : Type} (conv : T → BitVec 64) :
    Represents conv (Measurements.calloc cap) (Recorder.empty (T := T)) :=
  ⟨rfl, fun _ => rfl⟩

theorem modify_of_lt (m : Measurements cap) {k : Nat} (inside : k < cap) (f : P2pdelay → P2pdelay) :
    m.modify k f = some ⟨m.totalMeasurements, Function.update m.p2pdelayMeasurements ⟨k, inside⟩
      (f (m.p2pdelayMeasurements ⟨k, inside⟩))⟩ := by
  rw [Measurements.modify, dif_pos ⟨Int.natCast_nonneg k, by exact_mod_cast inside⟩]
  rfl

theorem of_modify {m m' : Measurements cap} {pktseq : Int} {f : P2pdelay → P2pdelay}
    (written : m.modify pktseq f = some m') :
    (0 ≤ pktseq ∧ pktseq < cap) ∧ m'.totalMeasurements = m.totalMeasurements := by
  rw [Measurements.modify] at written
  split at written
  · obtain rfl := Option.some.inj written
    exact ⟨by assumption, rfl⟩
  · cases written

theorem represents_take {T : Type} {conv : T → BitVec 64} {m : Measurements cap} {r : Recorder T}
    (rep : Represents conv m r) {h : Half T} (inside : h.seq < cap) :
    ∃ m', m.take (h.map conv) = some m' ∧ Represents conv m' (r.apply h) := by
  cases h with
  | event k t =>
    change k < cap at inside
    refine ⟨_, modify_of_lt m inside fun d => { d with recvTt := conv t }, rep.count, fun i => ?_⟩
    by_cases same : i = ⟨k, inside⟩
    · subst same
      simp [rep.entry]
    · have other : (i : Nat) ≠ k := fun number => same (Fin.ext number)
      simp [Function.update_of_ne same, Function.update_of_ne other, rep.entry]
  | followUp k t =>
    change k < cap at inside
    refine ⟨_, modify_of_lt m.count inside fun d => { d with sentTt := conv t }, ?_, fun i => ?_⟩
    · simp [Measurements.count, rep.count, BitVec.ofNat_add]
    · by_cases same : i = ⟨k, inside⟩
      · subst same
        simp [Measurements.count, rep.entry]
      · have other : (i : Nat) ≠ k := fun number => same (Fin.ext number)
        simp [Measurements.count, Function.update_of_ne same, Function.update_of_ne other, rep.entry]

/-! ### The result file of a recorder -/

def delayBits {T : Type} (conv : T → BitVec 64) (r : Recorder T) (k : Nat) : BitVec 64 :=
  (r.recv k).elim 0 conv - (r.sent k).elim 0 conv

theorem mapM_eq_map {α β : Type} {f : α → Option β} {g : α → β} {xs : List α}
    (every : ∀ x ∈ xs, f x = some (g x)) : xs.mapM f = some (xs.map g) := by
  induction xs with
  | nil => rfl
  | cons x xs ih =>
    rw [List.mapM_cons, every x List.mem_cons_self, ih fun y member => every y (List.mem_cons_of_mem _ member)]
    rfl

theorem fprintfLu_inj {v w : BitVec 64} (same : fprintfLu v = fprintfLu w) : v = w := by
  have numbers := congrArg Text.readInt same
  rw [fprintfLu, fprintfLu, Text.readInt_decimal_line, Text.readInt_decimal_line] at numbers
  exact BitVec.eq_of_toNat_eq (Int.ofNat.inj (Option.some.inj numbers))

theorem readlines_prints (vs : List (BitVec 64)) :
    Text.readlines (vs.map fprintfLu).flatten = vs.map fprintfLu := by
  have plain : ∀ line ∈ vs.map fun v => Text.decimal v.toNat, '\n' ∉ line := by
    intro line member
    obtain ⟨v, -, rfl⟩ := List.mem_map.mp member
    exact Text.not_mem_decimal (by decide) _
  have lines := Text.readlines_flatten plain
  rwa [List.map_map] at lines

/-- As long as the counter fits the array, the file has one line for each number below it. -/
theorem store_represents {T : Type} {conv : T → BitVec 64} {m : Measurements cap} {r : Recorder T}
    (rep : Represents conv m r) (fits : m.totalMeasurements.toNat ≤ cap) :
    ∃ file, storeResultsToFile (some m.p2pdelayMeasurements) m.totalMeasurements = some file ∧
      Text.readlines file =
        (List.range m.totalMeasurements.toNat).map fun k => fprintfLu (delayBits conv r k) := by
  have printed : (List.range m.totalMeasurements.toNat).mapM (fun i =>
        if inside : i < cap then some (fprintfLu (m.p2pdelayMeasurements ⟨i, inside⟩).delay) else none) =
      some (((List.range m.totalMeasurements.toNat).map (delayBits conv r)).map fprintfLu) := by
    rw [List.map_map]
    apply mapM_eq_map
    intro i member
    have inside : i < cap := by
      have := List.mem_range.mp member
      omega
    rw [dif_pos inside, rep.entry, P2pdelay.delay]
    rfl
  refine ⟨_, ?_, (readlines_prints _).trans (List.map_map ..)⟩
  rw [storeResultsToFile, printed]
  rfl

theorem isSome_of_mapM {α β : Type} {f : α → Option β} {xs : List α} {ys : List β}
    (mapped : xs.mapM f = some ys) : ∀ x ∈ xs, (f x).isSome = true := by
  induction xs generalizing ys with
  | nil => simp
  | cons x xs ih =>
    rw [List.mapM_cons] at mapped
    obtain ⟨y, head, mapped⟩ := Option.bind_eq_some_iff.mp mapped
    obtain ⟨zs, tail, -⟩ := Option.bind_eq_some_iff.mp mapped
    intro w member
    rcases List.mem_cons.mp member with rfl | later
    · rw [head]
      rfl
    · exact ih tail w later

theorem fits_of_store {entries : Fin cap → P2pdelay} {total : BitVec 64} {file : List Char}
    (stored : storeResultsToFile (some entries) total = some file) : total.toNat ≤ cap := by
  by_contra large
  rw [storeResultsToFile] at stored
  obtain ⟨lines, mapped, -⟩ := Option.map_eq_some_iff.mp stored
  have past := isSome_of_mapM mapped cap (List.mem_range.mpr (by omega))
  simp at past

/-! ### Both programs -/

/-- The half of a measurement a received datagram is to a program: a datagram with a whole header
of one of the program's own two types, an event with its NIC receive time. -/
def Program.half (p : Program) : Recvmsg → Option (Half (BitVec 64))
  | .error => none
  | .message bytes _ cmsgs =>
    let h := decode .big bytes
    if bytes.length < sizeofMdelayhdr then none
    else if h.type = p.event.code then (nicTime cmsgs).map fun ts => .event h.seq.toNat ts.nanos
    else if h.type = p.followUp.code then some (.followUp h.seq.toNat (p.stamp h))
    else none

/-- The outcome of `do_recv` once a call of `send_udp_packets_timestamp` has returned. -/
def DoRecv.outcome {σ : Type} : DoRecv σ → Option (Int × σ)
  | .returned got st | .sending got st _ => some (got, st)
  | .exited | .faulted => none

theorem outcome_written {σ : Type} {got got' : Int} {written : Option σ} {st : σ}
    (outcome : (DoRecv.written got written).outcome = some (got', st)) : written = some st := by
  cases written with
  | none => cases outcome
  | some st' =>
    obtain ⟨-, rfl⟩ := Prod.mk.inj (Option.some.inj outcome)
    rfl

def DoRecv.call {σ : Type} : DoRecv σ → Option Sender
  | .sending _ _ x => some x
  | _ => none

theorem call_written {σ : Type} (got : Int) (st : Option σ) : (DoRecv.written got st).call = none := by
  cases st <;> rfl

theorem written_ne_exited {σ : Type} (got : Int) (st : Option σ) : DoRecv.written got st ≠ .exited := by
  cases st <;> exact nofun

theorem Master.call_doRecv (e : Endian) (k : Stack) (r : Recvmsg) (m : Measurements Master.entries) :
    (Master.doRecv e k r m).call = none := by
  unfold Master.doRecv
  dsimp only
  split
  · rfl
  · split
    · split
      · exact call_written _ _
      · rfl
    · exact call_written _ _
    · rfl

/-- A call of `do_recv` that returns has received nothing, or has written one half of a measurement. -/
theorem Master.of_outcome {e : Endian} {k : Stack} {r : Recvmsg} {m m' : Measurements Master.entries} {got : Int}
    (outcome : (Master.doRecv e k r m).outcome = some (got, m')) :
    let h := decode e (r.buffer k)
    r.got = 0 ∧ m' = m ∨
      (h.type = PktType.delayResp.code ∧ ∃ ts, (retrieveTimestamp (r.control k)).bind (·[2]?) = some ts ∧
        m.setRecv h.seq.toInt ts.nanos = some m') ∨
      h.type = PktType.delayRespFollowUp.code ∧ m.count.setSent h.seq.toInt h.t4 = some m' := by
  intro h
  by_cases empty : r.got = 0
  · rw [Master.doRecv, if_pos empty] at outcome
    exact Or.inl ⟨empty, (Prod.mk.inj (Option.some.inj outcome)).2.symm⟩
  · rw [Master.doRecv, if_neg empty] at outcome
    dsimp only at outcome
    split at outcome
    · rename_i type
      split at outcome
      · rename_i ts read
        exact Or.inr (Or.inl ⟨PktType.ofCode_eq_some.mp type, ts, read, outcome_written outcome⟩)
      · cases outcome
    · rename_i type
      exact Or.inr (Or.inr ⟨PktType.ofCode_eq_some.mp type, outcome_written outcome⟩)
    · cases outcome

theorem Slave.of_outcome {e : Endian} {k : Stack} {r : Recvmsg} {s s' : Slave.State cap} {got : Int}
    (outcome : (Slave.doRecv e k r s).outcome = some (got, s')) :
    let h := decode e (r.buffer k)
    r.got = 0 ∧ s' = s ∨
      ∃ u host m, s.recordPeer e (r.hostAddress k) = some (u, host) ∧ s' = { u with meas := m } ∧
        ((h.type = PktType.delayReq.code ∧ ∃ ts, (retrieveTimestamp (r.control k)).bind (·[2]?) = some ts ∧
            u.meas.setRecv h.seq.toNat ts.nanos = some m) ∨
          h.type = PktType.delayReqFollowUp.code ∧ u.meas.count.setSent h.seq.toNat h.t2 = some m) := by
  intro h
  by_cases empty : r.got = 0
  · rw [Slave.doRecv, if_pos empty] at outcome
    exact Or.inl ⟨empty, (Prod.mk.inj (Option.some.inj outcome)).2.symm⟩
  · rw [Slave.doRecv, if_neg empty] at outcome
    dsimp only at outcome
    cases recorded : s.recordPeer e (r.hostAddress k) with
    | none =>
      rw [recorded] at outcome
      cases outcome
    | some pair =>
      obtain ⟨u, host⟩ := pair
      rw [recorded] at outcome
      dsimp only at outcome
      split at outcome
      · rename_i type
        split at outcome
        · rename_i ts read
          obtain ⟨m, written, rfl⟩ := Option.map_eq_some_iff.mp (outcome_written outcome)
          exact Or.inr ⟨u, host, m, rfl, rfl, Or.inl ⟨PktType.ofCode_eq_some.mp type, ts, read, written⟩⟩
        · cases outcome
      · rename_i type
        split at outcome
        · rename_i m written
          obtain ⟨-, rfl⟩ := Prod.mk.inj (Option.some.inj outcome)
          exact Or.inr ⟨u, host, m, rfl, rfl, Or.inr ⟨PktType.ofCode_eq_some.mp type, written⟩⟩
        · cases outcome
      · cases outcome

/-- The slave calls the sender on a follow-up alone, and answers the peer it has recorded. -/
theorem Slave.of_call {e : Endian} {k : Stack} {r : Recvmsg} {s : Slave.State cap} {x : Sender}
    (calls : (Slave.doRecv e k r s).call = some x) :
    let h := decode e (r.buffer k)
    ∃ u host, s.recordPeer e (r.hostAddress k) = some (u, host) ∧ h.type = PktType.delayReqFollowUp.code ∧
      x = sendUdpPacketsTimestamp host .delayResp (payloadSize - 10) 1 h.seq := by
  intro h
  by_cases empty : r.got = 0
  · rw [Slave.doRecv, if_pos empty] at calls
    cases calls
  · rw [Slave.doRecv, if_neg empty] at calls
    dsimp only at calls
    cases recorded : s.recordPeer e (r.hostAddress k) with
    | none =>
      rw [recorded] at calls
      cases calls
    | some pair =>
      obtain ⟨u, host⟩ := pair
      rw [recorded] at calls
      dsimp only at calls
      split at calls
      · split at calls
        · rw [call_written] at calls
          cases calls
        · cases calls
      · rename_i type
        split at calls
        · exact ⟨u, host, rfl, PktType.ofCode_eq_some.mp type, (Option.some.inj calls).symm⟩
        · cases calls
      · cases calls

/-- A program takes every half that fits its array, in every state that is `ready`. -/
structure Lawful (p : Program) (ready : p.State → Prop) : Prop where
  start : ready p.start ∧ p.measurements p.start = .calloc p.cap
  served : ∀ k r st h, ready st → p.half r = some h → h.seq < p.cap →
    ∃ got st', 0 < got ∧ (p.doRecv k r st).outcome = some (got, st') ∧ ready st' ∧
      (p.measurements st).take h = some (p.measurements st')
  ended : ∀ k src cmsgs st, p.doRecv k (.message [] src cmsgs) st = .returned 0 st

theorem half_eq_some {p : Program} {r : Recvmsg} {h : Half (BitVec 64)} (own : p.half r = some h) :
    ∃ bytes src cmsgs, r = .message bytes src cmsgs ∧ sizeofMdelayhdr ≤ bytes.length ∧
      (((decode .big bytes).type = p.event.code ∧ ∃ ts, nicTime cmsgs = some ts ∧
          h = .event (decode .big bytes).seq.toNat ts.nanos) ∨
        ((decode .big bytes).type = p.followUp.code ∧
          h = .followUp (decode .big bytes).seq.toNat (p.stamp (decode .big bytes)))) := by
  cases r with
  | error => cases own
  | message bytes src cmsgs =>
    simp only [Program.half] at own
    split_ifs at own with short event followUp
    · obtain ⟨ts, read, rfl⟩ := Option.map_eq_some_iff.mp own
      exact ⟨bytes, src, cmsgs, rfl, by omega, Or.inl ⟨event, ts, read, rfl⟩⟩
    · obtain rfl := Option.some.inj own
      exact ⟨bytes, src, cmsgs, rfl, by omega, Or.inr ⟨followUp, rfl⟩⟩

theorem half_eventMessage (role : Role) (e : Endian) (measureNumber seq : BitVec 32) (user : BitVec 64)
    (size : Nat) (fill : Byte) (src : SockaddrIn) {cmsgs : List Cmsghdr} {nic : Timespec}
    (read : nicTime cmsgs = some nic) :
    (role.program e measureNumber).half
        (.message ((role.peer.eventHeader seq user).message size fill) src cmsgs) =
      some (.event seq.toNat nic.nanos) := by
  have full : ¬ ((role.peer.eventHeader seq user).message size fill).length < sizeofMdelayhdr := by
    rw [Header.message, List.length_append, Header.length_wire, sizeofMdelayhdr]
    omega
  simp only [Program.half, if_neg full, decode_message, read]
  cases role <;> rfl

theorem half_followUpMessage (role : Role) (e : Endian) (measureNumber seq : BitVec 32) (user nic : BitVec 64)
    (size : Nat) (fill : Byte) (src : SockaddrIn) (cmsgs : List Cmsghdr) :
    (role.program e measureNumber).half
        (.message ((role.peer.followUpHeader seq user nic).message size fill) src cmsgs) =
      some (.followUp seq.toNat nic) := by
  have full : ¬ ((role.peer.followUpHeader seq user nic).message size fill).length < sizeofMdelayhdr := by
    rw [Header.message, List.length_append, Header.length_wire, sizeofMdelayhdr]
    omega
  simp only [Program.half, if_neg full, decode_message]
  cases role <;> rfl

theorem Master.lawful (e : Endian) (measureNumber : BitVec 32) :
    Lawful (Master.program e measureNumber) fun _ => True where
  start := ⟨trivial, rfl⟩
  served := by
    intro k r m h _ own inside
    obtain ⟨bytes, src, cmsgs, rfl, full, arm⟩ := half_eq_some own
    have positive := got_pos bytes src cmsgs (by rintro rfl; cases full)
    -- Below 100 the signed reading of the 32 bits is the number itself.
    have signed : h.seq = (decode .big bytes).seq.toNat →
        (decode .big bytes).seq.toInt = (decode .big bytes).seq.toNat := by
      intro number
      have small : h.seq < 100 := inside
      rw [BitVec.toInt_eq_toNat_of_lt]
      omega
    have decided := Master.doRecv_message e k src cmsgs full m
    rcases arm with ⟨type, ts, read, rfl⟩ | ⟨type, rfl⟩
    · rw [PktType.ofCode_eq_some.mpr type, read, signed rfl] at decided
      have written := modify_of_lt m (k := (decode .big bytes).seq.toNat) inside
        fun d => { d with recvTt := ts.nanos }
      refine ⟨_, _, positive, ?_, trivial, written⟩
      exact (congrArg DoRecv.outcome decided).trans (by simp only [Measurements.setRecv, written]; rfl)
    · rw [PktType.ofCode_eq_some.mpr type, signed rfl] at decided
      have written := modify_of_lt m.count (k := (decode .big bytes).seq.toNat) inside
        fun d => { d with sentTt := (decode .big bytes).t4 }
      refine ⟨_, _, positive, ?_, trivial, written⟩
      exact (congrArg DoRecv.outcome decided).trans (by simp only [Measurements.setSent, written]; rfl)
  ended := fun _ _ _ _ => rfl

def Slave.State.Ready (s : Slave.State cap) : Prop := s.meas.totalMeasurements ≠ 0 → s.remoteIp = true

theorem Slave.recordPeer_of_ready (e : Endian) {s : Slave.State cap} (ready : s.Ready) (src : SockaddrIn) :
    ∃ s' host, s.recordPeer e src = some (s', host) ∧ s'.meas = s.meas ∧ s'.remoteIp = true := by
  unfold Slave.State.recordPeer
  split
  · exact ⟨_, _, rfl, rfl, rfl⟩
  · rename_i counted
    rw [if_pos (ready counted)]
    exact ⟨_, _, rfl, rfl, ready counted⟩

theorem Slave.lawful (e : Endian) (measureNumber : BitVec 32) :
    Lawful (Slave.program e measureNumber) Slave.State.Ready where
  start := ⟨fun counted => absurd rfl counted, rfl⟩
  served := by
    intro k r s h ready own inside
    obtain ⟨bytes, src, cmsgs, rfl, full, arm⟩ := half_eq_some own
    have positive := got_pos bytes src cmsgs (by rintro rfl; cases full)
    obtain ⟨s', host, recorded, same, set⟩ := Slave.recordPeer_of_ready e ready src
    have decided := Slave.doRecv_message e k src cmsgs full s
    rw [recorded] at decided
    rcases arm with ⟨type, ts, read, rfl⟩ | ⟨type, rfl⟩
    · have written := modify_of_lt s'.meas (k := (decode .big bytes).seq.toNat) inside
        fun d => { d with recvTt := ts.nanos }
      simp only [PktType.ofCode_eq_some.mpr type, read, Measurements.setRecv, written] at decided
      refine ⟨_, _, positive, congrArg DoRecv.outcome decided, fun _ => set, ?_⟩
      change s.meas.take _ = _
      rw [← same]
      exact written
    · have written := modify_of_lt s'.meas.count (k := (decode .big bytes).seq.toNat) inside
        fun d => { d with sentTt := (decode .big bytes).t2 }
      simp only [PktType.ofCode_eq_some.mpr type, Measurements.setSent, written] at decided
      refine ⟨_, _, positive, congrArg DoRecv.outcome decided, fun _ => set, ?_⟩
      change s.meas.take _ = _
      rw [← same]
      exact written
  ended := fun _ _ _ _ => rfl

theorem Role.lawful (role : Role) (e : Endian) (measureNumber : BitVec 32) :
    ∃ ready, Lawful (role.program e measureNumber) ready := by
  cases role with
  | master => exact ⟨_, Master.lawful e measureNumber⟩
  | slave => exact ⟨_, Slave.lawful e measureNumber⟩

/-! ### Runs of the receive loop -/

def Stack.cleared : Stack := ⟨List.replicate payloadSize 0, [], ⟨0, 0⟩, List.length_replicate⟩

def arrival (h : Header) (nic : Timespec) : Stack × Recvmsg :=
  (.cleared, .message (h.message sizeofMdelayhdr 0) ⟨0, 0⟩ [⟨solSocket, soTimestamping, 48, [⟨0, 0⟩, ⟨0, 0⟩, nic]⟩])

/-- The inputs of a run on the program's own datagrams, with any stack contents: halves whose
number lies inside the array, and empty datagrams. -/
def Program.Feed (p : Program) (_ : p.Loop) (input : Stack × Recvmsg) : Prop :=
  (∃ h, p.half input.2 = some h ∧ h.seq < p.cap) ∨ ∃ src cmsgs, input.2 = .message [] src cmsgs

def Program.halves (p : Program) (inputs : List (Stack × Recvmsg)) : List (Half (BitVec 64)) :=
  inputs.filterMap fun input => p.half input.2

theorem turn_of_outcome {p : Program} {l : p.Loop} {input : Stack × Recvmsg} {got : Int} {st : p.State}
    (running : l.status = .running) (outcome : (p.doRecv input.1 input.2 l.st).outcome = some (got, st)) :
    p.turn l input = some (p.afterRecv l got st) := by
  unfold Program.turn
  rw [if_pos running]
  cases decided : p.doRecv input.1 input.2 l.st with
  | returned got' st' | sending got' st' call =>
    rw [decided] at outcome
    obtain ⟨rfl, rfl⟩ := Prod.mk.inj (Option.some.inj outcome)
    rfl
  | exited | faulted =>
    rw [decided] at outcome
    cases outcome

theorem running_of_turn {p : Program} {l l' : p.Loop} {input : Stack × Recvmsg}
    (turned : p.turn l input = some l') : l.status = .running := by
  unfold Program.turn at turned
  split at turned
  · assumption
  · cases turned

theorem turn_feed {p : Program} {ready : p.State → Prop} (lawful : Lawful p ready) {l l' : p.Loop}
    {input : Stack × Recvmsg} (isReady : ready l.st) (feed : p.Feed l input)
    (turned : p.turn l input = some l') :
    (∃ h got st, p.half input.2 = some h ∧ h.seq < p.cap ∧ 0 < got ∧ l' = p.afterRecv l got st ∧ ready st ∧
      (p.measurements l.st).take h = some (p.measurements st)) ∨
    (p.half input.2 = none ∧ l' = p.afterRecv l 0 l.st) := by
  have running := running_of_turn turned
  rcases feed with ⟨h, own, inside⟩ | ⟨src, cmsgs, empty⟩
  · obtain ⟨got, st, positive, outcome, kept, taken⟩ := lawful.served input.1 input.2 l.st h isReady own inside
    rw [turn_of_outcome running outcome] at turned
    exact Or.inl ⟨h, got, st, own, inside, positive, (Option.some.inj turned).symm, kept, taken⟩
  · have outcome : (p.doRecv input.1 input.2 l.st).outcome = some (0, l.st) := by
      rw [empty, lawful.ended]
      rfl
    rw [turn_of_outcome running outcome] at turned
    refine Or.inr ⟨?_, (Option.some.inj turned).symm⟩
    rw [empty]
    rfl

theorem run_recorder {T : Type} {r r' : Recorder T} {hs : List (Half T)}
    (run : Run (fun r h => some (Recorder.apply r h)) Any r hs r') : hs.foldl Recorder.apply r = r' := by
  induction hs generalizing r with
  | nil => exact run
  | cons h hs ih =>
    obtain ⟨-, u, taken, rest⟩ := run
    obtain rfl := Option.some.inj taken
    exact ih rest

/-- After any run the array represents the record of the halves received. -/
theorem run_represents {p : Program} {ready : p.State → Prop} (lawful : Lawful p ready) {var : Int}
    {inputs : List (Stack × Recvmsg)} {l : p.Loop} (run : Run p.turn p.Feed (p.enter var) inputs l) :
    ready l.st ∧ Represents id (p.measurements l.st) (record (p.halves inputs)) := by
  have start : ready (p.enter var).st ∧ Represents id (p.measurements (p.enter var).st) Recorder.empty := by
    refine ⟨lawful.start.1, ?_⟩
    rw [Program.enter, lawful.start.2]
    exact represents_calloc id
  obtain ⟨r, recorded, final⟩ := run_simulate (fun r h => some (Recorder.apply r h)) Any
    (fun l r => ready l.st ∧ Represents id (p.measurements l.st) r) (fun input => p.half input.2)
    (by
      intro l r input l' ⟨isReady, rep⟩ feed turned
      rcases turn_feed lawful isReady feed turned with ⟨h, got, st, own, inside, -, rfl, kept, taken⟩ | ⟨none, rfl⟩
      · obtain ⟨m', taken', rep'⟩ := represents_take rep inside
        have unmapped : h.map id = h := by cases h <;> rfl
        rw [unmapped, taken] at taken'
        obtain rfl := Option.some.inj taken'
        rw [own]
        exact ⟨trivial, _, rfl, kept, rep'⟩
      · rw [none]
        exact ⟨isReady, rep⟩) start run
  rw [record, Program.halves, run_recorder recorded]
  exact final

end Mdelay
