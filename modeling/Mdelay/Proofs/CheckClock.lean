import Mdelay.Model.CheckClock
import Mdelay.Proofs.Delay
import Mdelay.Proofs.Frame
import Mdelay.Proofs.Recording

/-!
# What check_clock vouches for

Which answers of `ptp4l`, which readings of the clocks and which command lines end in the exit code 0.
-/

namespace Mdelay.CheckClock
open ByteOrder Getopt

/-! ### The buffer -/

theorem ntohs_load (e : Endian) {bs : List Byte} (size : bs.length = 2) :
    ntohs e (BitVec.ofNat 16 (e.load bs)) = BitVec.ofNat 16 (ofBeBytes bs) := by
  cases e
  · have small := ofLeBytes_lt bs
    have small' := ofBeBytes_lt bs
    rw [size] at small small'
    apply BitVec.eq_of_toNat_eq
    rw [ntohs, toNat_htons_little, Endian.load, BitVec.toNat_ofNat, Nat.mod_eq_of_lt (by omega),
      swapBytes_load size, BitVec.toNat_ofNat, Nat.mod_eq_of_lt (by omega)]
  · rfl

/-- A management message with this TLV. -/
def Says (tlv : BitVec 16) (bytes : List Byte) : Prop :=
  BitVec.ofNat 16 (ofBeBytes (slice 48 2 bytes)) = tlvManagement ∧ BitVec.ofNat 16 (ofBeBytes (slice 52 2 bytes)) = tlv

instance (tlv : BitVec 16) (bytes : List Byte) : Decidable (Says tlv bytes) := inferInstanceAs (Decidable (_ ∧ _))

theorem said_iff (e : Endian) {recBuf : List Byte} (size : recBuf.length = 128) (tlv : BitVec 16) :
    ntohs e (recType e recBuf) = tlvManagement ∧ ntohs e (recReqId e recBuf) = tlv ↔ Says tlv recBuf := by
  rw [recType, recReqId, ntohs_load e (length_slice (by omega)), ntohs_load e (length_slice (by omega)), Says]

theorem slice_behind {off n : Nat} {dst src : List Byte} (past : src.length ≤ off) :
    slice off n (memcpy dst src) = slice off n dst := by
  rw [memcpy, slice_skip past, slice, slice, List.drop_drop, Nat.add_sub_cancel' past]

/-! ### Replies -/

/-- A failed `read` counts as an answer. -/
def Reply.Accepted : Reply → Prop
  | .error => True
  | .message bytes => sizeofRespTimeStat ≤ bytes.length
  | _ => False

instance : (r : Reply) → Decidable r.Accepted
  | .error => .isTrue trivial
  | .message bytes => inferInstanceAs (Decidable (sizeofRespTimeStat ≤ bytes.length))
  | .unsent | .silent => .isFalse id

/-- The buffer after a request. -/
def Reply.into (recBuf : List Byte) : Reply → List Byte
  | .message bytes => memcpy recBuf (bytes.take recBuf.length)
  | _ => recBuf

theorem length_into {recBuf : List Byte} (size : recBuf.length = 128) (r : Reply) : (r.into recBuf).length = 128 := by
  cases r with
  | message bytes =>
    rw [Reply.into, length_memcpy (List.length_take_le _ _)]
    exact size
  | unsent | silent | error => exact size

theorem sendWaitRecv_eq {recBuf : List Byte} (size : recBuf.length = 128) (r : Reply) :
    sendWaitRecv r recBuf = (if r.Accepted then .success else .failure, r.into recBuf) := by
  cases r with
  | unsent | silent => rfl
  | error =>
    have huge : sizeofRespTimeStat ≤ (BitVec.ofInt 64 (-1)).toNat := by decide
    unfold sendWaitRecv Reply.read
    dsimp only
    rw [if_pos huge]
    rfl
  | message bytes =>
    have count : (BitVec.ofInt 64 ((bytes.take recBuf.length).length : Int)).toNat = min 128 bytes.length := by
      rw [List.length_take, size, BitVec.ofInt_natCast, BitVec.toNat_ofNat]
      exact Nat.mod_eq_of_lt (by omega)
    have enough : sizeofRespTimeStat ≤ min 128 bytes.length ↔ (Reply.message bytes).Accepted := by
      show 62 ≤ min 128 bytes.length ↔ 62 ≤ bytes.length
      omega
    unfold sendWaitRecv Reply.read
    dsimp only
    rw [count]
    simp only [enough]
    rfl

/-- The buffer before an answer about the port: no state in it yet. -/
structure Blank (recBuf : List Byte) : Prop where
  size : recBuf.length = 128
  state : state recBuf = 0

theorem blank_start : Blank (List.replicate 128 0) := ⟨List.length_replicate, by decide⟩

theorem blank_into {recBuf : List Byte} (blank : Blank recBuf) {r : Reply} (rejected : ¬ r.Accepted) :
    Blank (r.into recBuf) := by
  refine ⟨length_into blank.size r, ?_⟩
  cases r with
  | unsent | silent | error => exact blank.state
  | message bytes =>
    have short : ¬ 62 ≤ bytes.length := rejected
    have past : (bytes.take recBuf.length).length ≤ 64 := by
      rw [List.length_take]
      omega
    rw [Reply.into, CheckClock.state, slice_behind past]
    exact blank.state

theorem said_into {recBuf bytes : List Byte} (size : recBuf.length = 128) (long : 62 ≤ bytes.length) (tlv : BitVec 16) :
    Says tlv ((Reply.message bytes).into recBuf) ↔ Says tlv bytes := by
  have room : 54 ≤ (bytes.take recBuf.length).length := by
    rw [List.length_take]
    omega
  unfold Says Reply.into memcpy
  rw [slice_of_append (by omega), slice_of_append (by omega), slice_take bytes (by omega), slice_take bytes (by omega)]

/-- The state of the port is in a message of 65 bytes or more, and a shorter one leaves the byte zero. -/
theorem state_into {recBuf bytes : List Byte} (blank : Blank recBuf) :
    state ((Reply.message bytes).into recBuf) = if 65 ≤ bytes.length then state bytes else 0 := by
  have size := blank.size
  split
  · have room : 64 + 1 ≤ (bytes.take recBuf.length).length := by
      rw [List.length_take]
      omega
    rw [state, Reply.into, memcpy, slice_of_append room, slice_take bytes (by omega), state]
  · have past : (bytes.take recBuf.length).length ≤ 64 := by
      rw [List.length_take]
      omega
    rw [state, Reply.into, slice_behind past]
    exact blank.state

/-! ### The offset -/

theorem llabs_eq_some {v w : BitVec 64} (known : llabs v = some w) : w.toInt = v.toInt.natAbs := by
  unfold llabs at known
  have least : v = BitVec.intMin 64 ↔ v.toInt = -9223372036854775808 := by
    rw [← BitVec.toInt_inj]
    rfl
  split at known
  · cases known
  · rename_i other
    rw [least] at other
    have bounds := BitVec.le_toInt v
    split at known
    · obtain rfl := Option.some.inj known
      have negated := BitVec.toInt_neg_of_ne_intMin (x := v) (by rwa [ne_eq, least])
      rw [negated]
      omega
    · obtain rfl := Option.some.inj known
      omega

theorem llabs_eq_none {v : BitVec 64} (unknown : llabs v = none) : v.toInt = -9223372036854775808 := by
  unfold llabs at unknown
  split at unknown
  · rename_i least
    rw [least]
    rfl
  · split at unknown <;> cases unknown

/-- The offset a message states, as the host reads it: `bswap_64` is right on a little-endian host only. -/
def statedOffset (e : Endian) (bytes : List Byte) : Int :=
  match e with
  | .little => (BitVec.ofNat 64 (ofBeBytes (slice 54 8 bytes))).toInt
  | .big => (BitVec.ofNat 64 (ofLeBytes (slice 54 8 bytes))).toInt

theorem bswap64_load (e : Endian) {recBuf : List Byte} (size : recBuf.length = 128) :
    (bswap64 (masterOffset e recBuf)).toInt = statedOffset e recBuf := by
  have whole : (slice 54 8 recBuf).length = 8 := length_slice (by omega)
  have small := ofLeBytes_lt (slice 54 8 recBuf)
  have small' := ofBeBytes_lt (slice 54 8 recBuf)
  rw [whole] at small small'
  cases e
  · rw [bswap64, masterOffset, statedOffset, Endian.load, BitVec.toNat_ofNat, Nat.mod_eq_of_lt (by omega), swapBytes_load whole]
  · have swapped : swapBytes 8 (ofBeBytes (slice 54 8 recBuf)) = ofLeBytes (slice 54 8 recBuf) := by
      rw [← swapBytes_load whole, swapBytes_swapBytes]
      exact Nat.mod_eq_of_lt small
    rw [bswap64, masterOffset, statedOffset, Endian.load, BitVec.toNat_ofNat, Nat.mod_eq_of_lt (by omega), swapped]

/-- The last answer lets the check pass: also when it could not be read, or is not about the offset. -/
def OffsetPasses (e : Endian) : Reply → Prop
  | .error => True
  | .message bytes =>
    sizeofRespTimeStat ≤ bytes.length ∧ (Says tlvTimeStatusNp bytes → (statedOffset e bytes).natAbs ≤ 100)
  | _ => False

theorem offset_verdict (e : Endian) {recBuf : List Byte} (size : recBuf.length = 128) :
    (getMasterOffset e recBuf).map (verdict true) = some .success ↔
      (Says tlvTimeStatusNp recBuf → (statedOffset e recBuf).natAbs ≤ 100) := by
  unfold getMasterOffset
  simp only [said_iff e size]
  by_cases said : Says tlvTimeStatusNp recBuf
  · rw [if_pos said, ← bswap64_load e size]
    cases known : llabs (bswap64 (masterOffset e recBuf)) with
    | none =>
      have least := llabs_eq_none known
      simp [said, least]
    | some w =>
      have size := llabs_eq_some known
      simp only [Option.map_some, verdict, size, said, true_imp_iff, Option.some.injEq]
      split
      · rename_i both
        exact iff_of_true rfl (by omega)
      · rename_i not_both
        exact iff_of_false Exit.noConfusion fun small => not_both ⟨trivial, by omega⟩
  · rw [if_neg said]
    exact iff_of_true rfl fun time => absurd time said

/-! ### check_ptp_offset -/

theorem setWidth_slave (st : BitVec 8) : st.setWidth 32 = slave.setWidth 32 ↔ st = slave := by
  have small := st.isLt
  rw [← BitVec.toNat_inj, ← BitVec.toNat_inj, BitVec.toNat_setWidth]
  show st.toNat % 4294967296 = 9 ↔ st.toNat = 9
  omega

/-- From an answer about the port on, whatever the variable held before. -/
theorem checkPort_success_iff (e : Endian) (gptpProfile : Bool) (portState : BitVec 32) {recBuf : List Byte}
    (size : recBuf.length = 128) (requests : List GetReq) (reply : Reply) :
    (checkPort e gptpProfile portState recBuf requests reply).ret = some .success ↔
      Says tlvPortDataSet recBuf ∧
        (state recBuf = master ∨ state recBuf = grandMaster ∨ state recBuf = slave ∧ OffsetPasses e reply) := by
  unfold checkPort
  by_cases said : Says tlvPortDataSet recBuf
  · have status : getPortStatus e recBuf portState = (isPortSane (state recBuf), (state recBuf).setWidth 32) :=
      if_pos ((said_iff e size _).mpr said)
    rw [status]
    simp only [setWidth_slave, said, true_and]
    by_cases isSlave : state recBuf = slave
    · have sane : isPortSane slave = true := rfl
      have others : ¬ slave = master ∧ ¬ slave = grandMaster := by decide
      rw [if_pos isSlave, isSlave, sane, sendWaitRecv_eq size]
      simp only [others, false_or, true_and]
      cases reply with
      | unsent | silent => exact iff_of_false (fun h => nomatch h) id
      | error =>
        refine iff_of_true ?_ trivial
        have other : ¬ Says tlvTimeStatusNp recBuf := by
          intro time
          have same := said.2.symm.trans time.2
          exact absurd same (by decide)
        exact (offset_verdict e size).mpr fun time => absurd time other
      | message bytes =>
        show _ ↔ 62 ≤ bytes.length ∧ _
        by_cases long : 62 ≤ bytes.length
        · have accepted : (Reply.message bytes).Accepted := long
          have stated : statedOffset e ((Reply.message bytes).into recBuf) = statedOffset e bytes := by
            have room : 54 + 8 ≤ (bytes.take recBuf.length).length := by
              rw [List.length_take]
              omega
            unfold statedOffset Reply.into memcpy
            rw [slice_of_append room, slice_take bytes (by omega)]
          rw [if_pos accepted]
          simp only [long, true_and]
          rw [← said_into size long tlvTimeStatusNp, ← stated]
          exact offset_verdict e (length_into size _)
        · have rejected : ¬ (Reply.message bytes).Accepted := long
          rw [if_neg rejected]
          exact iff_of_false (fun h => nomatch h) fun h => long h.1
    · rw [if_neg isSlave]
      simp only [isSlave, false_and, or_false, verdict, isPortSane, false_or, decide_eq_true_eq, Option.some.injEq]
      split
      · rename_i both
        exact iff_of_true rfl both.1
      · rename_i not_both
        exact iff_of_false Exit.noConfusion fun sane => not_both ⟨sane, by decide⟩
  · have status : getPortStatus e recBuf portState = (false, portState) := if_neg (mt (said_iff e size _).mp said)
    have failure (offset : BitVec 64) : verdict false offset = .failure := rfl
    rw [status]
    simp only [said, false_and, iff_false]
    split
    · rw [sendWaitRecv_eq size]
      by_cases accepted : reply.Accepted
      · rw [if_pos accepted]
        simp [failure, Option.map_eq_some_iff]
      · rw [if_neg accepted]
        simp
    · simp [failure]

/-- The message that is taken for the answer about the port, and the number of the next request. -/
def PortAnswer (reply : Nat → Reply) (bytes : List Byte) (next : Nat) : Prop :=
  reply 0 = .message bytes ∧ next = 1 ∨ ¬ (reply 0).Accepted ∧ reply 1 = .message bytes ∧ next = 2

theorem answer_success_iff (e : Endian) (gptpProfile : Bool) (portState : BitVec 32) {recBuf : List Byte}
    (blank : Blank recBuf) (requests : List GetReq) (r reply : Reply) (accepted : r.Accepted) :
    (checkPort e gptpProfile portState (r.into recBuf) requests reply).ret = some .success ↔
      ∃ bytes, r = .message bytes ∧ 65 ≤ bytes.length ∧ Says tlvPortDataSet bytes ∧
        (state bytes = master ∨ state bytes = grandMaster ∨ state bytes = slave ∧ OffsetPasses e reply) := by
  rw [checkPort_success_iff e gptpProfile portState (length_into blank.size r) requests reply]
  have none : ¬ ((0 : BitVec 8) = master ∨ (0 : BitVec 8) = grandMaster ∨ (0 : BitVec 8) = slave ∧ OffsetPasses e reply) := by
    intro wrong
    rcases wrong with wrong | wrong | ⟨wrong, -⟩ <;> exact absurd wrong (by decide)
  cases r with
  | unsent | silent => exact accepted.elim
  | error =>
    show _ ∧ (state recBuf = _ ∨ state recBuf = _ ∨ state recBuf = _ ∧ _) ↔ _
    rw [blank.state]
    refine iff_of_false (fun both => none both.2) fun found => ?_
    obtain ⟨bytes, same, -⟩ := found
    cases same
  | message bytes =>
    have long : 62 ≤ bytes.length := accepted
    rw [said_into blank.size long, state_into blank]
    by_cases full : 65 ≤ bytes.length
    · simp [full]
    · rw [if_neg full]
      refine iff_of_false (fun both => none both.2) fun found => ?_
      obtain ⟨bytes', same, long', -⟩ := found
      obtain rfl := Reply.message.inj same
      exact full long'

/-- The check of `ptp4l` passes exactly when the port said that it is a master, or a slave whose answer about the
offset does not state more than 100. The variable that is not initialised does not matter. -/
theorem ptp_check_passes_iff (e : Endian) (opened : Bool) (portState : BitVec 32) (reply : Nat → Reply) :
    (checkPtpOffset e opened portState reply).ret = some .success ↔
      opened = true ∧ ∃ bytes next, PortAnswer reply bytes next ∧ 65 ≤ bytes.length ∧ Says tlvPortDataSet bytes ∧
        (state bytes = master ∨ state bytes = grandMaster ∨ state bytes = slave ∧ OffsetPasses e (reply next)) := by
  unfold checkPtpOffset PortAnswer
  cases opened with
  | false => simp
  | true =>
    rw [if_pos rfl, sendWaitRecv_eq List.length_replicate]
    by_cases first : (reply 0).Accepted
    · rw [if_pos first]
      dsimp only
      rw [answer_success_iff e false portState blank_start _ _ _ first]
      constructor
      · intro passes
        obtain ⟨bytes, found, rest⟩ := passes
        exact ⟨rfl, bytes, 1, Or.inl ⟨found, rfl⟩, rest⟩
      · intro passes
        obtain ⟨-, bytes, next, ⟨found, rfl⟩ | ⟨rejected, -⟩, rest⟩ := passes
        · exact ⟨bytes, found, rest⟩
        · exact absurd first rejected
    · have blank := blank_into blank_start first
      have short (bytes : List Byte) (found : reply 0 = .message bytes) : ¬ 65 ≤ bytes.length := by
        rw [found] at first
        have less : ¬ 62 ≤ bytes.length := first
        omega
      rw [if_neg first]
      dsimp only
      rw [sendWaitRecv_eq blank.size]
      by_cases second : (reply 1).Accepted
      · rw [if_pos second]
        dsimp only
        rw [answer_success_iff e true portState blank _ _ _ second]
        constructor
        · intro passes
          obtain ⟨bytes, found, rest⟩ := passes
          exact ⟨rfl, bytes, 2, Or.inr ⟨first, found, rfl⟩, rest⟩
        · intro passes
          obtain ⟨-, bytes, next, ⟨found, -⟩ | ⟨-, found, rfl⟩, rest⟩ := passes
          · exact absurd rest.1 (short bytes found)
          · exact ⟨bytes, found, rest⟩
      · rw [if_neg second]
        refine iff_of_false (fun h => nomatch h) fun passes => ?_
        obtain ⟨-, bytes, next, ⟨found, -⟩ | ⟨-, found, -⟩, full, -⟩ := passes
        · exact absurd full (short bytes found)
        · rw [found] at second
          have less : ¬ 62 ≤ bytes.length := second
          omega

/-! ### The requests -/

/-- The request on the wire. -/
def requestBytes (reqId : BitVec 16) (gptpProfile : Bool) : List Byte :=
  [if gptpProfile then 0x1D else 0x0D, 0x02, 0, 54] ++ List.replicate 24 0 ++ [0, 1, 0, 0, 0x04, 0x7F] ++
    List.replicate 10 0xFF ++ [0, 0, 0, 0, 0, 1, 0, 2] ++ beBytes 2 reqId.toNat

theorem buildPtpRequest_bytes (e : Endian) (reqId : BitVec 16) (gptpProfile : Bool) :
    (buildPtpRequest e reqId gptpProfile).bytes e = requestBytes reqId gptpProfile := by
  have zero2 : e.store 2 (0 : BitVec 16).toNat = [0, 0] := by cases e <;> rfl
  have zero4 : e.store 4 (0 : BitVec 32).toNat = [0, 0, 0, 0] := by cases e <;> rfl
  have zero8 : e.store 8 (0 : BitVec 64).toNat = [0, 0, 0, 0, 0, 0, 0, 0] := by cases e <;> rfl
  have ones : e.store 2 (BitVec.allOnes 16).toNat = [0xFF, 0xFF] := by cases e <;> rfl
  simp only [GetReq.bytes, MgmtMsg.bytes, PtpHdr.bytes, PortId.bytes, buildPtpRequest, store_htons, zero2, zero4, zero8, ones]
  cases gptpProfile <;> rfl

/-- The buffer with the answer about the port, if there is one. -/
def portBuffer (reply : Nat → Reply) : Option (List Byte) :=
  let recBuf := (reply 0).into (List.replicate 128 0)
  if (reply 0).Accepted then some recBuf
  else if (reply 1).Accepted then some ((reply 1).into recBuf) else none

/-- Whether the offset is asked for: where the answer is not about the port, the variable that is not initialised
decides. -/
def AsksOffset (portState : BitVec 32) (recBuf : List Byte) : Prop :=
  if Says tlvPortDataSet recBuf then state recBuf = slave else portState = slave.setWidth 32

theorem checkPort_requests (e : Endian) (gptpProfile : Bool) (portState : BitVec 32) {recBuf : List Byte}
    (size : recBuf.length = 128) (requests : List GetReq) (reply : Reply) :
    ∃ asks : Bool, (checkPort e gptpProfile portState recBuf requests reply).requests =
      requests ++ (if asks then [buildPtpRequest e tlvTimeStatusNp gptpProfile] else []) ∧
        (asks = true ↔ AsksOffset portState recBuf) := by
  have status : (getPortStatus e recBuf portState).2 = slave.setWidth 32 ↔ AsksOffset portState recBuf := by
    unfold getPortStatus AsksOffset
    simp only [said_iff e size]
    split
    · exact setWidth_slave _
    · exact Iff.rfl
  refine ⟨decide ((getPortStatus e recBuf portState).2 = slave.setWidth 32), ?_, by rw [decide_eq_true_iff, status]⟩
  unfold checkPort
  dsimp only
  split
  · rename_i isSlave
    rw [sendWaitRecv_eq size, decide_eq_true isSlave, if_pos rfl]
    split <;> rfl
  · rename_i other
    rw [decide_eq_false other]
    exact (List.append_nil _).symm

/-- The requests on the wire are the same for a host of either byte order: one for the state of the port, one more in
the gPTP profile if the first is not answered, and, in the profile that was answered, one for the offset. -/
theorem requests_on_wire (e : Endian) (portState : BitVec 32) (reply : Nat → Reply) :
    ∃ asks : Bool, (checkPtpOffset e true portState reply).requests.map (GetReq.bytes e) =
      requestBytes tlvPortDataSet false ::
        (if (reply 0).Accepted then [] else [requestBytes tlvPortDataSet true]) ++
          (if asks then [requestBytes tlvTimeStatusNp (decide ¬ (reply 0).Accepted)] else []) ∧
        (asks = true ↔ ∃ recBuf ∈ portBuffer reply, AsksOffset portState recBuf) := by
  have size := length_into (List.length_replicate (n := 128) (a := (0 : Byte))) (reply 0)
  unfold checkPtpOffset portBuffer
  rw [if_pos rfl, sendWaitRecv_eq List.length_replicate]
  by_cases first : (reply 0).Accepted
  · obtain ⟨asks, sent, when⟩ := checkPort_requests e false portState size
      [buildPtpRequest e tlvPortDataSet false] (reply 1)
    refine ⟨asks, ?_, ?_⟩
    · simp only [if_pos first]
      rw [sent]
      cases asks <;> simp [buildPtpRequest_bytes, first]
    · rw [when, if_pos first]
      simp
  · simp only [if_neg first]
    rw [sendWaitRecv_eq size]
    by_cases second : (reply 1).Accepted
    · obtain ⟨asks, sent, when⟩ := checkPort_requests e true portState (length_into size (reply 1))
        [buildPtpRequest e tlvPortDataSet false, buildPtpRequest e tlvPortDataSet true] (reply 2)
      refine ⟨asks, ?_, ?_⟩
      · simp only [if_pos second]
        rw [sent]
        cases asks <;> simp [buildPtpRequest_bytes, first]
      · rw [when, if_pos second]
        simp
    · refine ⟨false, ?_, ?_⟩
      · simp [second, buildPtpRequest_bytes]
      · rw [if_neg second]
        simp

/-! ### The clocks of the host -/

theorem exists_llabs {v : BitVec 64} (other : v.toInt ≠ -9223372036854775808) :
    ∃ w, llabs v = some w ∧ w.toInt = v.toInt.natAbs := by
  cases known : llabs v with
  | none => exact absurd (llabs_eq_none known) other
  | some w => exact ⟨w, rfl, llabs_eq_some known⟩

theorem ofInt_sub (x y : Int) : BitVec.ofInt 64 (x - y) = BitVec.ofInt 64 x - BitVec.ofInt 64 y := by
  rw [Int.sub_eq_add_neg, BitVec.ofInt_add, BitVec.ofInt_neg, BitVec.sub_eq_add_neg]

theorem toInt_difference {x y : Timespec} (xs : x.Valid) (ys : y.Valid) :
    (x.nanos - y.nanos).toInt = x.value - y.value := by
  have x_fits := xs.fits
  have y_fits := ys.fits
  have x_nonneg := xs.value_nonneg
  have y_nonneg := ys.value_nonneg
  have same : x.nanos - y.nanos = BitVec.ofInt 64 (x.value - y.value) := by
    rw [Timespec.nanos_eq, Timespec.nanos_eq, ofInt_sub]
  rw [same]
  exact BitVec.toInt_ofInt_eq_self (by decide) (by omega) (by omega)

/-- For times below 2^62 nanoseconds the local check passes exactly when the card's clock is less than 50 µs from
37 s after `CLOCK_REALTIME` and at most 50 µs from `CLOCK_TAI`, and the kernel's TAI offset is 37. -/
theorem local_clock_passes_iff (r : Readings) (rt : r.rt.Valid) (tai : r.tai.Valid) (ptp : r.ptp.Valid)
    (early : r.rt.value < 0x4000000000000000) :
    checkLocalClock r = some .success ↔
      (r.ptp.value - r.rt.value - 37000000000).natAbs < 50000 ∧ (r.ptp.value - r.tai.value).natAbs ≤ 50000 ∧
        r.adjtimex = some 37 := by
  have ptp_fits := ptp.fits
  have tai_fits := tai.fits
  have ptp_nonneg := ptp.value_nonneg
  have rt_nonneg := rt.value_nonneg
  have tai_nonneg := tai.value_nonneg
  have overTai := toInt_difference ptp tai
  have overRt : (r.ptp.nanos - r.rt.nanos - 37 * 1000000000).toInt = r.ptp.value - r.rt.value - 37000000000 := by
    have same : r.ptp.nanos - r.rt.nanos - 37 * 1000000000 =
        BitVec.ofInt 64 (r.ptp.value - r.rt.value - 37000000000) := by
      rw [Timespec.nanos_eq, Timespec.nanos_eq, ofInt_sub, ofInt_sub]
      rfl
    rw [same]
    exact BitVec.toInt_ofInt_eq_self (by decide) (by omega) (by omega)
  obtain ⟨deltaRt, known, sizeRt⟩ := exists_llabs (v := r.ptp.nanos - r.rt.nanos - 37 * 1000000000) (by omega)
  obtain ⟨deltaTai, known', sizeTai⟩ := exists_llabs (v := r.ptp.nanos - r.tai.nanos) (by omega)
  unfold checkLocalClock
  dsimp only
  rw [known, Option.bind_some, known', Option.map_some, Option.some.injEq, sizeRt, sizeTai, overRt, overTai]
  cases r.adjtimex with
  | none => simp
  | some offset =>
    simp only [Option.getD_some, reduceCtorEq, false_or, Option.some.injEq, utcOffset, ne_eq]
    split
    · rename_i wrong
      refine iff_of_false Exit.noConfusion fun right => ?_
      obtain ⟨near, close, offset⟩ := right
      rcases wrong with far | far | other
      · omega
      · omega
      · exact other offset
    · rename_i right
      rw [not_or, not_or, not_not] at right
      obtain ⟨near, close, offset⟩ := right
      exact iff_of_true rfl ⟨by omega, by omega, offset⟩

/-- Clocks that agree to the nanosecond. -/
def agreeing : Readings := ⟨true, ⟨63, 5⟩, ⟨100, 5⟩, ⟨100, 5⟩, some 37⟩

theorem local_clock_passes_agreeing : checkLocalClock agreeing = some .success :=
  (local_clock_passes_iff agreeing ⟨by decide, by decide, by decide⟩ ⟨by decide, by decide, by decide⟩
    ⟨by decide, by decide, by decide⟩ (by decide)).mpr ⟨by decide, by decide, rfl⟩

/-! ### The exit code -/

/-- The options that let the loop go on. -/
def Handled (o : Opt) : Prop := o = .flag 'v' ∨ ∃ value, o = .arg 'd' value

theorem apply_of_handled (a : Args) {o : Opt} (handled : Handled o) :
    ∃ b, a.apply o = .ok b ∧ ∀ opts, ((last 'd' opts).map (·.take 15)).getD [] = a.ifname →
      ((last 'd' (opts ++ [o])).map (·.take 15)).getD [] = b.ifname := by
  obtain rfl | ⟨value, rfl⟩ := handled
  · exact ⟨{ a with verbose := true }, rfl, fun opts same => by rw [last_snoc]; exact same⟩
  · exact ⟨{ a with ifname := value.take 15 }, rfl, fun opts _ => by rw [last_snoc_arg, if_pos rfl]; rfl⟩

theorem apply_of_other (a : Args) {o : Opt} (other : ¬ Handled o) :
    a.apply o = .error (if o = .flag 'h' then .success else .failure) := by
  unfold Args.apply
  split
  · exact absurd (Or.inr ⟨_, rfl⟩) other
  · exact absurd (Or.inl rfl) other
  · rfl
  · rename_i help
    rw [if_neg help]

theorem scan_of_handled {opts : List Opt} (handled : ∀ o ∈ opts, Handled o) :
    ∃ b, opts.foldlM Args.apply ⟨[], false⟩ = .ok b ∧ ((last 'd' opts).map (·.take 15)).getD [] = b.ifname := by
  induction opts using List.reverseRecOn with
  | nil => exact ⟨⟨[], false⟩, rfl, rfl⟩
  | append_singleton opts o ih =>
    rw [List.forall_mem_append, List.forall_mem_singleton] at handled
    obtain ⟨b, read, name⟩ := ih handled.1
    obtain ⟨b', applied, name'⟩ := apply_of_handled b handled.2
    refine ⟨b', ?_, name' opts name⟩
    rw [List.foldlM_append, read]
    show [o].foldlM Args.apply b = _
    rw [List.foldlM_cons, applied]
    rfl

theorem scan_of_other {pre : List Opt} (handled : ∀ o ∈ pre, Handled o) {o : Opt} (other : ¬ Handled o)
    (post : List Opt) :
    (pre ++ o :: post).foldlM Args.apply ⟨[], false⟩ = .error (if o = .flag 'h' then .success else .failure) := by
  obtain ⟨b, read, -⟩ := scan_of_handled handled
  rw [List.foldlM_append, read]
  show (o :: post).foldlM Args.apply b = _
  rw [List.foldlM_cons, apply_of_other b other]
  rfl

/-- The first option that leaves the loop. -/
theorem all_handled_or_other (opts : List Opt) :
    (∀ o ∈ opts, Handled o) ∨ ∃ pre o post, opts = pre ++ o :: post ∧ (∀ o ∈ pre, Handled o) ∧ ¬ Handled o := by
  induction opts with
  | nil => exact Or.inl (List.forall_mem_nil _)
  | cons o opts ih =>
    by_cases handled : Handled o
    · obtain all | ⟨pre, o', post, rfl, all, other⟩ := ih
      · exact Or.inl (List.forall_mem_cons.mpr ⟨handled, all⟩)
      · exact Or.inr ⟨o :: pre, o', post, rfl, List.forall_mem_cons.mpr ⟨handled, all⟩, other⟩
    · exact Or.inr ⟨[], o, opts, rfl, List.forall_mem_nil _, handled⟩

theorem or_eq_success (a b : Exit) : a.or b = .success ↔ a = .success ∧ b = .success := by
  cases a <;> cases b <;> simp [Exit.or]

/-- The exit code is 0 when the help is asked for before any wrong option, and otherwise only for a named interface
whose clock can be opened, with both checks passed. -/
theorem main_success_iff (e : Endian) (args : List Text) (readings : Text → Readings) (opened : Bool)
    (portState : BitVec 32) (reply : Nat → Reply) :
    main e args readings opened portState reply = some .success ↔
      (∃ pre post, optstring.getopt args = pre ++ .flag 'h' :: post ∧ ∀ o ∈ pre, Handled o) ∨
      (∀ o ∈ optstring.getopt args, Handled o) ∧ ∃ name, last 'd' (optstring.getopt args) = some name ∧ name ≠ [] ∧
        (readings (name.take 15)).phcOpened = true ∧ checkLocalClock (readings (name.take 15)) = some .success ∧
          (checkPtpOffset e opened portState reply).ret = some .success := by
  have help : ¬ Handled (.flag 'h') := by
    intro handled
    obtain same | ⟨value, same⟩ := handled <;> simp at same
  unfold main
  generalize optstring.getopt args = opts
  obtain all | ⟨pre, o, post, rfl, all, other⟩ := all_handled_or_other opts
  · obtain ⟨b, read, name⟩ := scan_of_handled all
    have noHelp : ¬ ∃ pre post, opts = pre ++ .flag 'h' :: post ∧ ∀ o ∈ pre, Handled o := by
      intro asked
      obtain ⟨pre, post, rfl, -⟩ := asked
      exact help (all _ (List.mem_append_right _ List.mem_cons_self))
    simp only [read, noHelp, false_or]
    cases found : last 'd' opts with
    | none =>
      rw [found] at name
      have empty : b.ifname = [] := name.symm
      rw [if_pos empty]
      simp
    | some value =>
      rw [found] at name
      have cut : b.ifname = value.take 15 := name.symm
      have filled : value.take 15 = [] ↔ value = [] := by simp [List.take_eq_nil_iff]
      rw [cut]
      by_cases empty : value = []
      · rw [if_pos (filled.mpr empty)]
        simp [empty]
      · rw [if_neg (mt filled.mp empty)]
        cases clock : (readings (value.take 15)).phcOpened with
        | false =>
          rw [if_pos rfl]
          refine iff_of_false (fun h => nomatch h) fun passes => ?_
          obtain ⟨-, name, same, -, opened, -⟩ := passes
          rw [← Option.some.inj same, clock] at opened
          cases opened
        | true =>
          rw [if_neg (by simp)]
          simp only [Option.bind_eq_some_iff, Option.map_eq_some_iff, or_eq_success]
          constructor
          · intro passes
            obtain ⟨ret, checked, ret', checked', rfl, rfl⟩ := passes
            exact ⟨all, value, rfl, empty, clock, checked, checked'⟩
          · intro passes
            obtain ⟨-, name, same, -, -, checked, checked'⟩ := passes
            obtain rfl := Option.some.inj same
            exact ⟨_, checked, _, checked', rfl, rfl⟩
  · have left : ¬ ∀ o' ∈ pre ++ o :: post, Handled o' := fun handled =>
      other (handled o (List.mem_append_right _ List.mem_cons_self))
    simp only [scan_of_other all other post, left, false_and, or_false, Option.some.injEq]
    constructor
    · intro code
      split at code
      · rename_i asked
        rw [asked]
        exact ⟨pre, post, rfl, all⟩
      · cases code
    · intro asked
      obtain ⟨pre', post', same, all'⟩ := asked
      have code := scan_of_other all other post
      rw [same, scan_of_other all' help post', if_pos rfl] at code
      exact (Except.error.inj code).symm

end Mdelay.CheckClock
