import Mdelay.Proofs.Allocation
import Mdelay.Proofs.OnePeer

/-!
# Failed and short receives

`do_recv` tests only for a length of 0. After an error, or when the type byte has not arrived, what it
decodes is what the stack held; five bytes are enough for the type and the number to be the sender's.
-/

namespace Mdelay
open ByteOrder Transition

variable {cap : Nat} {e : Endian}

/-! ### What the buffer holds -/

/-- A stack whose leftover bytes have the type `code`. -/
def Stack.forged (code : BitVec 8) : Stack where
  buffer := List.replicate 4 0 ++ code :: List.replicate (payloadSize - 5) 0
  control := []
  hostAddress := ⟨0, 0⟩
  size := by
    rw [List.length_append, List.length_cons, List.length_replicate, List.length_replicate]
    rfl

theorem type_of_forged {r : Recvmsg} (untyped : ¬ r.Typed) (code : BitVec 8) :
    (Mdelayhdr.ofBytes e (r.buffer (.forged code))).type = code := by
  have type {bs rest : List Byte} (left : bs.drop 4 = code :: rest) : (Mdelayhdr.ofBytes e bs).type = code := by
    change BitVec.ofNat 8 (ofLeBytes (slice 4 1 bs)) = code
    rw [slice, left]
    simp [ofLeBytes]
  have left : (Stack.forged code).buffer.drop 4 = code :: List.replicate (payloadSize - 5) 0 := rfl
  cases r with
  | error => exact type left
  | message bytes src cmsgs =>
    have few : (bytes.take payloadSize).length ≤ 4 := by
      have short : bytes.length ≤ 4 := Nat.not_lt.mp untyped
      rw [List.length_take]
      omega
    refine type (Eq.trans ?_ left)
    change (bytes.take payloadSize ++ (Stack.forged code).buffer.drop (bytes.take payloadSize).length).drop 4 = _
    rw [List.drop_append, List.drop_eq_nil_of_le few, List.nil_append, List.drop_drop,
      Nat.add_sub_cancel' few]

/-! ### When a write changes nothing -/

/-- The entry `i` already holds `t` as its reception time. -/
def Measurements.Holds (m : Measurements cap) (i : Int) (t : BitVec 64) : Prop :=
  ∃ j : Fin cap, (j : Int) = i ∧ (m.p2pdelayMeasurements j).recvTt = t

theorem setRecv_eq_self {m : Measurements cap} {i : Int} {t : BitVec 64} :
    m.setRecv i t = some m ↔ m.Holds i t := by
  unfold Measurements.setRecv Measurements.modify
  split
  · rename_i inside
    have number : (((⟨i.toNat, by omega⟩ : Fin cap) : Nat) : Int) = i := by
      show (i.toNat : Int) = i
      omega
    constructor
    · intro same
      refine ⟨⟨i.toNat, by omega⟩, number, ?_⟩
      have entry := congrArg (fun m => (Measurements.p2pdelayMeasurements m ⟨i.toNat, by omega⟩).recvTt)
        (Option.some.inj same)
      simpa using entry.symm
    · rintro ⟨j, rfl, held⟩
      have kept : Function.update m.p2pdelayMeasurements j
          { m.p2pdelayMeasurements j with recvTt := t } = m.p2pdelayMeasurements := by
        rw [← held]
        exact Function.update_eq_self j _
      exact congrArg some (congrArg (Measurements.mk m.totalMeasurements) kept)
  · rename_i outside
    refine iff_of_false (fun absurd => by cases absurd) ?_
    rintro ⟨j, rfl, -⟩
    exact outside ⟨Int.natCast_nonneg _, by exact_mod_cast j.isLt⟩

theorem written_eq_returned {σ : Type} {got : Int} {written : Option σ} {st : σ} :
    DoRecv.written got written = .returned got st ↔ written = some st := by
  cases written <;> simp [DoRecv.written]

theorem counted_ne (m : Measurements cap) {i : Int} {t : BitVec 64} : m.count.setSent i t ≠ some m := by
  intro same
  have total := (of_modify same).2
  change m.totalMeasurements = m.totalMeasurements + 1 at total
  bv_omega

/-! ### The arms of do_recv -/

variable {measureNumber : BitVec 32} {k : Stack} {r : Recvmsg}

/-- A follow-up is counted wherever its type byte comes from. -/
theorem Master.followUp_affects {m : Measurements Master.entries} (some : r.got ≠ 0)
    (type : (Mdelayhdr.ofBytes e (r.buffer k)).type = PktType.delayRespFollowUp.code) :
    Master.doRecv e k r m ≠ .returned r.got m ∧ Master.doRecv e k r m ≠ .exited := by
  unfold Master.doRecv
  rw [if_neg some]
  dsimp only
  rw [PktType.ofCode_eq_some.mpr type]
  refine ⟨fun same => counted_ne m (written_eq_returned.mp same), ?_⟩
  dsimp only
  cases m.count.setSent (ntohl e (Mdelayhdr.ofBytes e (r.buffer k)).seq).toInt
    (ntoh64 e (Mdelayhdr.ofBytes e (r.buffer k)).t4) <;> exact fun absurd => by cases absurd

theorem Slave.followUp_affects {s : Slave.State cap} (some : r.got ≠ 0)
    (type : (Mdelayhdr.ofBytes e (r.buffer k)).type = PktType.delayReqFollowUp.code) :
    Slave.doRecv e k r s ≠ .returned r.got s ∧ Slave.doRecv e k r s ≠ .exited := by
  unfold Slave.doRecv
  rw [if_neg some]
  dsimp only
  rw [PktType.ofCode_eq_some.mpr type]
  cases s.recordPeer e (r.hostAddress k) with
  | none => exact ⟨fun absurd => (by cases absurd), fun absurd => (by cases absurd)⟩
  | some recorded =>
    dsimp only
    cases recorded.1.meas.count.setSent (ntohl e (Mdelayhdr.ofBytes e (r.buffer k)).seq).toNat
      (ntoh64 e (Mdelayhdr.ofBytes e (r.buffer k)).t2) <;>
      exact ⟨fun absurd => (by cases absurd), fun absurd => (by cases absurd)⟩

variable {bytes : List Byte} {src : SockaddrIn} {cmsgs : List Cmsghdr}

theorem got_of_typed (src : SockaddrIn) (cmsgs : List Cmsghdr) (typed : 4 < bytes.length) :
    (Recvmsg.message bytes src cmsgs).got ≠ 0 :=
  Int.ne_of_gt (got_pos bytes src cmsgs (by rintro rfl; cases typed))

theorem Master.doRecv_front (typed : 4 < bytes.length) (m : Measurements Master.entries) :
    Master.doRecv e k (.message bytes src cmsgs) m =
      match PktType.ofCode (Mdelayhdr.ofBytes e bytes).type with
      | some .delayResp =>
        match nicTime cmsgs with
        | some ts => .written (Recvmsg.message bytes src cmsgs).got (m.setRecv (Role.master.pktseq e bytes) ts.nanos)
        | none => .faulted
      | some .delayRespFollowUp => .written (Recvmsg.message bytes src cmsgs).got
          (m.count.setSent (Role.master.pktseq e bytes)
            (ntoh64 e (Mdelayhdr.ofBytes e ((Recvmsg.message bytes src cmsgs).buffer k)).t4))
      | _ => .exited := by
  obtain ⟨seq, type⟩ := front_of_message (e := e) k src cmsgs typed
  unfold Master.doRecv Role.pktseq
  rw [if_neg (got_of_typed src cmsgs typed)]
  dsimp only
  rw [type, seq]
  rfl

theorem Slave.doRecv_front (typed : 4 < bytes.length) (s : Slave.State cap) :
    Slave.doRecv e k (.message bytes src cmsgs) s =
      match s.recordPeer e src with
      | none => .faulted
      | some (s, hostAddress) =>
        match PktType.ofCode (Mdelayhdr.ofBytes e bytes).type with
        | some .delayReq =>
          match nicTime cmsgs with
          | some ts => .written (Recvmsg.message bytes src cmsgs).got
              ((s.meas.setRecv (Role.slave.pktseq e bytes) ts.nanos).map fun m => { s with meas := m })
          | none => .faulted
        | some .delayReqFollowUp =>
          match s.meas.count.setSent (Role.slave.pktseq e bytes)
              (ntoh64 e (Mdelayhdr.ofBytes e ((Recvmsg.message bytes src cmsgs).buffer k)).t2) with
          | some m => .sending (Recvmsg.message bytes src cmsgs).got { s with meas := m }
              (sendUdpPacketsTimestamp hostAddress .delayResp (payloadSize - 10) 1
                (ntohl e (Mdelayhdr.ofBytes e bytes).seq))
          | none => .faulted
        | _ => .exited := by
  obtain ⟨seq, type⟩ := front_of_message (e := e) k src cmsgs typed
  unfold Slave.doRecv Role.pktseq
  rw [if_neg (got_of_typed src cmsgs typed)]
  dsimp only
  rw [type, seq]
  rfl

/-! ### The peer -/

/-- Recording `src` leaves the peer as it is. -/
def Slave.State.Kept (e : Endian) (s : Slave.State cap) (src : SockaddrIn) : Prop :=
  s.meas.totalMeasurements = 0 →
    s.remoteIp = true ∧ s.ntoaBuffer = inetNtoa e src.sinAddr ∧ s.remotePort = ntohs e src.sinPort

theorem recordPeer_eq_self {s s' : Slave.State cap} {host : SockaddrIn}
    (recorded : s.recordPeer e src = some (s', host)) : s' = s ↔ s.Kept e src := by
  unfold Slave.State.recordPeer at recorded
  unfold Slave.State.Kept
  split at recorded
  · rename_i start
    obtain ⟨rfl, -⟩ := Prod.mk.inj (Option.some.inj recorded)
    constructor
    · intro same _
      exact ⟨(congrArg Slave.State.remoteIp same).symm, (congrArg Slave.State.ntoaBuffer same).symm,
        (congrArg Slave.State.remotePort same).symm⟩
    · intro kept
      obtain ⟨set, ip, port⟩ := kept start
      rw [← set, ← ip, ← port]
  · rename_i counted
    split at recorded
    · obtain ⟨rfl, -⟩ := Prod.mk.inj (Option.some.inj recorded)
      exact iff_of_true rfl fun start => absurd start counted
    · cases recorded

/-! ### Events -/

theorem Master.event_iff (typed : 4 < bytes.length)
    (type : (Mdelayhdr.ofBytes e bytes).type = PktType.delayResp.code) (m : Measurements Master.entries) :
    let r := Recvmsg.message bytes src cmsgs
    (Master.doRecv e k r m = .returned r.got m ↔
      ∃ ts, nicTime cmsgs = some ts ∧ m.Holds (Role.master.pktseq e bytes) ts.nanos) ∧
        Master.doRecv e k r m ≠ .exited := by
  intro r
  rw [Master.doRecv_front typed, PktType.ofCode_eq_some.mpr type]
  cases nicTime cmsgs with
  | none =>
    refine ⟨iff_of_false (fun absurd => by cases absurd) ?_, fun absurd => by cases absurd⟩
    rintro ⟨ts, absurd, -⟩
    cases absurd
  | some ts =>
    refine ⟨(written_eq_returned.trans setRecv_eq_self).trans ?_, written_ne_exited _ _⟩
    constructor
    · exact fun held => ⟨ts, rfl, held⟩
    · rintro ⟨ts', same, held⟩
      obtain rfl := Option.some.inj same
      exact held

theorem meas_eq_self {s s' : Slave.State cap} {i : Int} {t : BitVec 64} (same : s'.meas = s.meas) :
    (s'.meas.setRecv i t).map (fun m => { s' with meas := m }) = some s ↔ s.meas.Holds i t ∧ s' = s := by
  rw [Option.map_eq_some_iff, ← setRecv_eq_self, same]
  constructor
  · rintro ⟨m, written, rfl⟩
    obtain rfl : s'.meas = m := same
    exact ⟨written, rfl⟩
  · rintro ⟨written, rfl⟩
    exact ⟨_, written, rfl⟩

theorem Slave.event_iff (typed : 4 < bytes.length)
    (type : (Mdelayhdr.ofBytes e bytes).type = PktType.delayReq.code) {s : Slave.State cap} (ready : s.Ready) :
    let r := Recvmsg.message bytes src cmsgs
    (Slave.doRecv e k r s = .returned r.got s ↔
      ∃ ts, nicTime cmsgs = some ts ∧ s.meas.Holds (Role.slave.pktseq e bytes) ts.nanos ∧ s.Kept e src) ∧
        Slave.doRecv e k r s ≠ .exited := by
  intro r
  obtain ⟨s', host, recorded, same, -⟩ := Slave.recordPeer_of_ready e ready src
  rw [Slave.doRecv_front typed, recorded, PktType.ofCode_eq_some.mpr type]
  dsimp only
  cases nicTime cmsgs with
  | none =>
    refine ⟨iff_of_false (fun absurd => by cases absurd) ?_, fun absurd => by cases absurd⟩
    rintro ⟨ts, absurd, -⟩
    cases absurd
  | some ts =>
    refine ⟨(written_eq_returned.trans (meas_eq_self same)).trans ?_, written_ne_exited _ _⟩
    rw [recordPeer_eq_self recorded]
    constructor
    · rintro ⟨held, kept⟩
      exact ⟨ts, rfl, held, kept⟩
    · rintro ⟨ts', same', held, kept⟩
      obtain rfl := Option.some.inj same'
      exact ⟨held, kept⟩

theorem Master.unknown_exits (typed : 4 < bytes.length)
    (event : (Mdelayhdr.ofBytes e bytes).type ≠ PktType.delayResp.code)
    (followUp : (Mdelayhdr.ofBytes e bytes).type ≠ PktType.delayRespFollowUp.code) (m : Measurements Master.entries) :
    Master.doRecv e k (.message bytes src cmsgs) m = .exited := by
  rw [Master.doRecv_front typed]
  split
  · exact absurd (PktType.ofCode_eq_some.mp (by assumption)) event
  · exact absurd (PktType.ofCode_eq_some.mp (by assumption)) followUp
  · rfl

theorem Slave.unknown_exits (typed : 4 < bytes.length)
    (event : (Mdelayhdr.ofBytes e bytes).type ≠ PktType.delayReq.code)
    (followUp : (Mdelayhdr.ofBytes e bytes).type ≠ PktType.delayReqFollowUp.code) {s : Slave.State cap}
    (ready : s.Ready) : Slave.doRecv e k (.message bytes src cmsgs) s = .exited := by
  obtain ⟨s', host, recorded, -, -⟩ := Slave.recordPeer_of_ready e ready src
  rw [Slave.doRecv_front typed, recorded]
  dsimp only
  split
  · exact absurd (PktType.ofCode_eq_some.mp (by assumption)) event
  · exact absurd (PktType.ofCode_eq_some.mp (by assumption)) followUp
  · rfl

/-! ### Both programs -/

/-- The slave's peer stays as it is; the master has none. -/
def Role.Kept (role : Role) {e : Endian} {measureNumber : BitVec 32} (st : (role.program e measureNumber).State)
    (src : SockaddrIn) : Prop :=
  match role, st with
  | .master, _ => True
  | .slave, s => Slave.State.Kept e s src

def Role.Ready (role : Role) {e : Endian} {measureNumber : BitVec 32} (st : (role.program e measureNumber).State) :
    Prop :=
  match role, st with
  | .master, _ => True
  | .slave, s => Slave.State.Ready s

variable {role : Role} {st : (role.program e measureNumber).State}

theorem affects_of_followUp (some : r.got ≠ 0)
    (type : (Mdelayhdr.ofBytes e (r.buffer k)).type = (role.program e measureNumber).followUp.code) :
    (role.program e measureNumber).doRecv k r st ≠ .returned r.got st ∧
      (role.program e measureNumber).doRecv k r st ≠ .exited := by
  cases role with
  | master => exact Master.followUp_affects some type
  | slave => exact Slave.followUp_affects some type

/-- Where the type byte is the stack's, some stack makes the call count a follow-up. -/
theorem affects_of_untyped (st : (role.program e measureNumber).State) (some : r.got ≠ 0) (untyped : ¬ r.Typed) :
    ∃ k, (role.program e measureNumber).doRecv k r st ≠ .returned r.got st ∧
      (role.program e measureNumber).doRecv k r st ≠ .exited :=
  ⟨.forged (role.program e measureNumber).followUp.code, affects_of_followUp some (type_of_forged untyped _)⟩

theorem ignored_of_empty (st : (role.program e measureNumber).State) (empty : r.got = 0) (k : Stack) :
    (role.program e measureNumber).doRecv k r st = .returned r.got st := by
  rw [empty]
  cases role <;> exact if_pos empty

theorem event_iff (ready : role.Ready st) (typed : 4 < bytes.length)
    (type : (Mdelayhdr.ofBytes e bytes).type = (role.program e measureNumber).event.code) (k : Stack) :
    let p := role.program e measureNumber
    let r := Recvmsg.message bytes src cmsgs
    (p.doRecv k r st = .returned r.got st ↔ ∃ ts, nicTime cmsgs = some ts ∧
        (p.measurements st).Holds (role.pktseq e bytes) ts.nanos ∧ role.Kept st src) ∧
      p.doRecv k r st ≠ .exited := by
  intro p r
  cases role with
  | master =>
    obtain ⟨same, goesOn⟩ : (p.doRecv k r st = .returned r.got st ↔ _) ∧ _ := Master.event_iff typed type st
    refine ⟨same.trans ?_, goesOn⟩
    simp only [Role.Kept, and_true]
    rfl
  | slave => exact Slave.event_iff typed type ready

theorem unknown_exits (ready : role.Ready st) (typed : 4 < bytes.length)
    (event : (Mdelayhdr.ofBytes e bytes).type ≠ (role.program e measureNumber).event.code)
    (followUp : (Mdelayhdr.ofBytes e bytes).type ≠ (role.program e measureNumber).followUp.code) (k : Stack) :
    (role.program e measureNumber).doRecv k (.message bytes src cmsgs) st = .exited := by
  cases role with
  | master => exact Master.unknown_exits typed event followUp st
  | slave => exact Slave.unknown_exits typed event followUp ready

theorem ready_of_run {var : Int} {inputs : List (Stack × Recvmsg)} {l : (role.program e measureNumber).Loop}
    (run : Run (role.program e measureNumber).turn Any ((role.program e measureNumber).enter var) inputs l) :
    role.Ready l.st := by
  cases role with
  | master => trivial
  | slave => exact Slave.ready_of_run e measureNumber run

/-- A datagram whose type byte is its own: the event may have no effect, the follow-up always has one,
and the unknown type ends the process. -/
theorem typed_iff (ready : role.Ready st) (typed : 4 < bytes.length) (src : SockaddrIn) (cmsgs : List Cmsghdr) :
    let p := role.program e measureNumber
    let r := Recvmsg.message bytes src cmsgs
    let type := (Mdelayhdr.ofBytes e bytes).type
    ((∀ k, p.doRecv k r st = .returned r.got st) ↔ type = p.event.code ∧ ∃ ts, nicTime cmsgs = some ts ∧
        (p.measurements st).Holds (role.pktseq e bytes) ts.nanos ∧ role.Kept st src) ∧
      ((∀ k, p.doRecv k r st = .exited) ↔ type ≠ p.event.code ∧ type ≠ p.followUp.code) := by
  intro p r type
  by_cases event : type = p.event.code
  · have decides : ∀ k, (p.doRecv k r st = .returned r.got st ↔ ∃ ts, nicTime cmsgs = some ts ∧
        (p.measurements st).Holds (role.pktseq e bytes) ts.nanos ∧ role.Kept st src) ∧ p.doRecv k r st ≠ .exited :=
      event_iff ready typed event
    refine ⟨?_, iff_of_false (fun exits => (decides .cleared).2 (exits .cleared)) fun unknown => unknown.1 event⟩
    constructor
    · intro ignored
      exact ⟨event, (decides .cleared).1.mp (ignored .cleared)⟩
    · rintro ⟨-, held⟩ k
      exact (decides k).1.mpr held
  · by_cases followUp : type = p.followUp.code
    · have buffered : (Mdelayhdr.ofBytes e (r.buffer .cleared)).type = p.followUp.code := by
        rw [(front_of_message .cleared src cmsgs typed).2]
        exact followUp
      obtain ⟨affects, goesOn⟩ : p.doRecv .cleared r st ≠ .returned r.got st ∧ p.doRecv .cleared r st ≠ .exited :=
        affects_of_followUp (got_of_typed src cmsgs typed) buffered
      exact ⟨iff_of_false (fun ignored => affects (ignored .cleared)) fun kept => event kept.1,
        iff_of_false (fun exits => goesOn (exits .cleared)) fun unknown => unknown.2 followUp⟩
    · have exits : ∀ k, p.doRecv k r st = .exited := unknown_exits ready typed event followUp
      refine ⟨iff_of_false (fun ignored => ?_) fun kept => event kept.1, iff_of_true exits ⟨event, followUp⟩⟩
      cases (exits .cleared).symm.trans (ignored .cleared)

/-- A receive without a type byte of its own has no effect for every stack only if it is empty, and it
never ends the process for every stack. -/
theorem untyped_iff (st : (role.program e measureNumber).State) (untyped : ¬ r.Typed) :
    let p := role.program e measureNumber
    ((∀ k, p.doRecv k r st = .returned r.got st) ↔ r.got = 0) ∧ ¬ ∀ k, p.doRecv k r st = .exited := by
  intro p
  by_cases empty : r.got = 0
  · have ignored := ignored_of_empty st empty
    refine ⟨iff_of_true ignored empty, fun exits => ?_⟩
    cases (exits .cleared).symm.trans (ignored .cleared)
  · obtain ⟨k, affects, goesOn⟩ := affects_of_untyped st empty untyped
    exact ⟨iff_of_false (fun ignored => affects (ignored k)) empty, fun exits => goesOn (exits k)⟩

/-- A receive has no effect, whatever the stack holds, when it delivers nothing, or an event that
records what the entry and the peer already are; and it ends the process, whatever the stack holds,
when it delivers a type byte the program does not know. -/
theorem short_receive_iff (role : Role) (e : Endian) (measureNumber : BitVec 32) (var : Int)
    (inputs : List (Stack × Recvmsg)) (l : (role.program e measureNumber).Loop)
    (run : Run (role.program e measureNumber).turn Any ((role.program e measureNumber).enter var) inputs l)
    (r : Recvmsg) :
    let p := role.program e measureNumber
    ((∀ k, p.doRecv k r l.st = .returned r.got l.st) ↔
      r.got = 0 ∨ ∃ bytes src cmsgs ts, r = .message bytes src cmsgs ∧ 4 < bytes.length ∧
        (Mdelayhdr.ofBytes e bytes).type = p.event.code ∧ nicTime cmsgs = some ts ∧
        (p.measurements l.st).Holds (role.pktseq e bytes) ts.nanos ∧ role.Kept l.st src) ∧
    ((∀ k, p.doRecv k r l.st = .exited) ↔
      ∃ bytes src cmsgs, r = .message bytes src cmsgs ∧ 4 < bytes.length ∧
        (Mdelayhdr.ofBytes e bytes).type ≠ p.event.code ∧ (Mdelayhdr.ofBytes e bytes).type ≠ p.followUp.code) := by
  intro p
  have ready := ready_of_run run
  by_cases typed : r.Typed
  · cases r with
    | error => exact typed.elim
    | message bytes src cmsgs =>
      obtain ⟨ignores, exits⟩ := typed_iff ready typed src cmsgs
      rw [ignores, exits]
      refine ⟨⟨?_, ?_⟩, ⟨fun unknown => ⟨bytes, src, cmsgs, rfl, typed, unknown⟩, ?_⟩⟩
      · rintro ⟨event, ts, held⟩
        exact Or.inr ⟨bytes, src, cmsgs, ts, rfl, typed, event, held⟩
      · rintro (empty | ⟨bytes', src', cmsgs', ts, same, -, event, held⟩)
        · exact absurd empty (got_of_typed src cmsgs typed)
        · obtain ⟨rfl, rfl, rfl⟩ := Recvmsg.message.inj same
          exact ⟨event, ts, held⟩
      · rintro ⟨bytes', src', cmsgs', same, -, unknown⟩
        obtain ⟨rfl, rfl, rfl⟩ := Recvmsg.message.inj same
        exact unknown
  · obtain ⟨ignores, goesOn⟩ := untyped_iff l.st typed
    have never {bytes : List Byte} {src : SockaddrIn} {cmsgs : List Cmsghdr}
        (same : r = .message bytes src cmsgs) : ¬ 4 < bytes.length := by
      rw [same] at typed
      exact typed
    rw [ignores]
    refine ⟨(or_iff_left ?_).symm, iff_of_false goesOn ?_⟩
    · rintro ⟨bytes, src, cmsgs, ts, same, typed, -⟩
      exact never same typed
    · rintro ⟨bytes, src, cmsgs, same, typed, -⟩
      exact never same typed

/-- The stack that an earlier call has left, with the follow-up of the number 0. -/
def Stack.left : Stack where
  buffer := (Role.master.followUpHeader 0 7 5).message payloadSize 0x42
  control := []
  hostAddress := ⟨1, 1⟩
  size := length_message _ _ (by decide)

/-- A receive error on which the slave counts a follow-up and sends an answer, or does not go on. -/
theorem short_receive_error :
    let p := Slave.program .little 1
    let st := p.start
    (p.doRecv .left .error st).outcome.map (fun o => (p.total o.2).toNat) = some 1 ∧
      (p.doRecv .left .error st).call.isSome = true ∧ (p.doRecv (.forged 9) .error st).outcome.isNone = true ∧
      ¬ ∀ k, p.doRecv k .error st = .returned Recvmsg.error.got st := by
  intro p st
  have counted : (p.doRecv .left .error st).outcome.map (fun o => (p.total o.2).toNat) = some 1 := by
    decide +kernel
  refine ⟨counted, by decide +kernel, by decide +kernel, fun ignored => ?_⟩
  rw [ignored] at counted
  exact absurd counted (by decide)

/-- A DELAY_RESP 0 of five bytes, with the time at which the one before it arrived. -/
theorem short_receive_repeated :
    let p := Master.program .big 3
    let cmsgs := [⟨solSocket, soTimestamping, 48, [⟨0, 0⟩, ⟨0, 0⟩, ⟨0, 9⟩]⟩]
    ∃ l, Run p.turn Any (p.enter 1) [arrival (Role.slave.eventHeader 0 7) ⟨0, 9⟩] l ∧
      ∀ k, p.doRecv k (.message [0, 0, 0, 0, 2] ⟨0, 0⟩ cmsgs) l.st = .returned 5 l.st := by
  intro p cmsgs
  obtain ⟨l, run, seen⟩ := run_of_exec p.turn Any (p.enter 1) [arrival (Role.slave.eventHeader 0 7) ⟨0, 9⟩]
    (fun l => l.st.p2pdelayMeasurements 0) ⟨0, 9⟩ (by decide +kernel)
  refine ⟨l, run, (short_receive_iff .master .big 3 1 _ l run (.message [0, 0, 0, 0, 2] ⟨0, 0⟩ cmsgs)).1.mpr ?_⟩
  exact Or.inr ⟨_, _, _, ⟨0, 9⟩, rfl, by decide, by decide, rfl, ⟨⟨0, by decide⟩, by decide, congrArg P2pdelay.recvTt seen⟩, trivial⟩

end Mdelay
