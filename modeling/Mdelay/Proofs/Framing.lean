import Mdelay.Proofs.Calls
import Mdelay.Proofs.Recording

/-!
# Framing on a stream socket

Both programs take what one `recvmsg` returns for one packet. Over TCP that is right exactly when
every return is one whole message.
-/

namespace Mdelay
open ByteOrder

variable {cap : Nat}

/-- A message that `send_udp_packets_timestamp` writes for a program, with the header it put there. -/
structure Role.Written (role : Role) where
  header : Header
  bytes : List Byte
  written : ∃ e, ∃ x : Sender, x.pkttype = role.pkttype ∧ x.pktsize = role.pktsize ∧
    ((∃ tv, header = role.eventHeader x.currentSeq tv.nanos ∧ (x.sendEvent e tv).2 = some bytes) ∨
      (∃ seq user, x.mdelayhdr = (role.eventHeader seq user).toNetwork e 0 ∧
        header = role.followUpHeader seq user x.ts2.nanos ∧ (x.sendFollowUp e).2 = some bytes))

def Role.handles (role : Role) (type : BitVec 8) : Bool :=
  match role, PktType.ofCode type with
  | .master, some .delayResp | .master, some .delayRespFollowUp => true
  | .slave, some .delayReq | .slave, some .delayReqFollowUp => true
  | _, _ => false

/-- The headers `do_recv` acts on in successive turns. It exits on a type it does not know. -/
def Role.headersActedOn (role : Role) (e : Endian) : List (Stack × Recvmsg) → List Header
  | [] => []
  | (k, r) :: rest =>
    let mdelayhdr := decode e (r.buffer k)
    mdelayhdr :: if role.handles mdelayhdr.type then role.headersActedOn e rest else []

theorem Master.exited_iff (e : Endian) (k : Stack) {r : Recvmsg} (some : r.got ≠ 0)
    (m : Measurements Master.entries) :
    Master.doRecv e k r m = .exited ↔ Role.master.handles (decode e (r.buffer k)).type = false := by
  rw [Master.doRecv, if_neg some]
  change _ ↔ Role.handles _ (Mdelayhdr.ofBytes e (r.buffer k)).type = false
  dsimp only [Role.handles]
  cases PktType.ofCode (Mdelayhdr.ofBytes e (r.buffer k)).type with
  | none => simp
  | some type =>
    cases type with
    | delayReq | delayReqFollowUp => simp
    | delayResp =>
      dsimp only
      split <;> simp [written_ne_exited]
    | delayRespFollowUp => simp [written_ne_exited]

theorem Slave.exited_iff (e : Endian) (k : Stack) {r : Recvmsg} (some : r.got ≠ 0) {s : Slave.State cap}
    (ready : s.Ready) :
    Slave.doRecv e k r s = .exited ↔ Role.slave.handles (decode e (r.buffer k)).type = false := by
  obtain ⟨s', host, recorded, -, -⟩ := Slave.recordPeer_of_ready e ready (r.hostAddress k)
  rw [Slave.doRecv, if_neg some, recorded]
  change _ ↔ Role.handles _ (Mdelayhdr.ofBytes e (r.buffer k)).type = false
  dsimp only [Role.handles]
  cases PktType.ofCode (Mdelayhdr.ofBytes e (r.buffer k)).type with
  | none => simp
  | some type =>
    cases type with
    | delayResp | delayRespFollowUp => simp
    | delayReq =>
      dsimp only
      split <;> simp [written_ne_exited]
    | delayReqFollowUp =>
      dsimp only
      split <;> simp

/-! ### The bytes of a message -/

theorem seq_bytes {bs : List Byte} (full : 40 ≤ bs.length) :
    beBytes 4 (decode .big bs).seq.toNat = bs.take 4 := by
  have size : (bs.take 4).length = 4 := by
    rw [List.length_take]
    omega
  have small := ofBeBytes_lt (bs.take 4)
  change beBytes 4 (BitVec.ofNat 32 (ofBeBytes (bs.take 4))).toNat = _
  rw [BitVec.toNat_ofNat, Nat.mod_eq_of_lt (by rw [size] at small; omega), beBytes_ofBeBytes size]

theorem t4_bytes {bs : List Byte} (full : 40 ≤ bs.length) :
    beBytes 8 (decode .big bs).t4.toNat = slice 32 8 bs := by
  have size : (slice 32 8 bs).length = 8 := length_slice (by omega)
  have small := ofBeBytes_lt (slice 32 8 bs)
  have read := ntoh64_load .big size
  change beBytes 8 (ntoh64 .big (BitVec.ofNat 64 (Endian.load .big (slice 32 8 bs)))).toNat = _
  rw [read, BitVec.toNat_ofNat, Nat.mod_eq_of_lt (by rw [size] at small; omega), beBytes_ofBeBytes size]

theorem type_byte {bs : List Byte} (full : 40 ≤ bs.length) : bs[4]? = some (decode .big bs).type := by
  have inside : 4 < bs.length := by omega
  have single : slice 4 1 bs = [bs[4]] := by
    rw [slice, List.drop_eq_getElem_cons inside, List.take_succ_cons, List.take_zero]
  change _ = some (BitVec.ofNat 8 (ofLeBytes (slice 4 1 bs)))
  rw [single, List.getElem?_eq_getElem inside, ofLeBytes, ofLeBytes, Nat.mul_zero, Nat.add_zero,
    BitVec.ofNat_toNat, BitVec.setWidth_eq]

/-- What framing uses of a message: its length, its filler and, in a response, that `t1` is 0. -/
structure Role.Shape (role : Role) (header : Header) (bytes : List Byte) (fill : Byte) : Prop where
  message : bytes = header.message role.pktsize fill
  filler : role.peer.handles fill = false
  handled : role.peer.handles header.type = true
  noT1 : role = .slave → header.t1 = 0

theorem Role.Written.shape {role : Role} (w : role.Written) : ∃ fill, role.Shape w.header w.bytes fill := by
  obtain ⟨header, bytes, e, x, kind, size, ⟨tv, rfl, sent⟩ | ⟨seq, user, holds, rfl, sent⟩⟩ := w
  · rw [sendEvent_message e tv kind, size] at sent
    refine ⟨role.eventFill, (Option.some.inj sent).symm, ?_, ?_, ?_⟩
    · cases role <;> rfl
    · cases role <;> rfl
    · rintro rfl
      rfl
  · rw [sendFollowUp_message e kind holds, size] at sent
    refine ⟨role.followUpFill, (Option.some.inj sent).symm, ?_, ?_, ?_⟩
    · cases role <;> rfl
    · cases role <;> rfl
    · rintro rfl
      rfl

theorem pktsize_bounds (role : Role) : 40 ≤ role.pktsize ∧ role.pktsize ≤ payloadSize := by
  cases role <;> decide

theorem Role.Written.length_bytes {role : Role} (w : role.Written) : w.bytes.length = role.pktsize := by
  obtain ⟨fill, shape⟩ := w.shape
  rw [shape.message, length_message _ _ (pktsize_bounds role).1]

theorem Role.Written.decode_bytes {role : Role} (e : Endian) (w : role.Written) : decode e w.bytes = w.header := by
  obtain ⟨fill, shape⟩ := w.shape
  rw [shape.message, decode_message]

/-! ### Misaligned reads -/

theorem filler_of_suffix {role : Role} (w : role.Written) {c y : List Byte} (split : w.bytes = c ++ y)
    (past : 40 ≤ c.length) : ∃ fill, role.peer.handles fill = false ∧ y = List.replicate y.length fill := by
  obtain ⟨fill, shape⟩ := w.shape
  refine ⟨fill, shape.filler, ?_⟩
  have tail : y = w.bytes.drop c.length := by rw [split, List.drop_left]
  rw [tail, shape.message, Header.message, List.drop_append, List.drop_eq_nil_of_le (by simpa using past),
    List.nil_append, List.drop_replicate, List.length_replicate]

/-- A read that starts `r` bytes early finds the filler of the message before in its type byte: the
filler goes on through the sequence number, which is that of the next message. -/
theorem early_read {role : Role} {w : role.Written} {chunk rest rest' : List Byte} {fill : Byte} {r : Nat}
    (some : 0 < r) (front : chunk ++ rest = List.replicate r fill ++ (w.bytes ++ rest'))
    (full : 40 ≤ chunk.length) (same : decode .big chunk = w.header) : w.header.type = fill := by
  have size := w.length_bytes
  have bounds := pktsize_bounds role
  have seq : chunk.take 4 = w.bytes.take 4 := by
    rw [← seq_bytes full, ← seq_bytes (by omega), same, w.decode_bytes]
  have byte (j : Nat) (inside : j < 40) :
      chunk[j]? = (List.replicate r fill ++ (w.bytes ++ rest'))[j]? := by
    rw [← front, List.getElem?_append_left (by omega)]
  have filled (j : Nat) (inside : j ≤ 4) : chunk[j]? = Option.some fill := by
    induction j using Nat.strong_induction_on with
    | _ j ih =>
      rw [byte j (by omega)]
      by_cases early : j < r
      · rw [List.getElem?_append_left (by simpa using early), List.getElem?_replicate_of_lt early]
      · have back : w.bytes[j - r]? = chunk[j - r]? := by
          rw [← List.getElem?_take_of_lt (show j - r < 4 by omega), ← seq, List.getElem?_take_of_lt (by omega)]
        rw [List.getElem?_append_right (by simpa using Nat.le_of_not_lt early), List.length_replicate,
          List.getElem?_append_left (by omega), back]
        exact ih (j - r) (by omega) (by omega)
  have type := type_byte full
  rw [filled 4 (Nat.le_refl 4), same] at type
  exact (Option.some.inj type).symm

theorem zero_bytes (w : Role.slave.Written) {j : Nat} (after : 5 ≤ j) (before : j < 16) : w.bytes[j]? = some 0 := by
  obtain ⟨fill, shape⟩ := w.shape
  have t1 := shape.noT1 rfl
  have front : (beBytes 4 w.header.seq.toNat ++ [w.header.type]).length = 5 := by simp
  have zeros : leBytes 3 (0 : BitVec 24).toNat ++ beBytes 8 (0 : BitVec 64).toNat = List.replicate 11 0 := by decide
  rw [shape.message, Header.message, Header.wire, t1]
  simp only [List.append_assoc]
  rw [← List.append_assoc, ← List.append_assoc (leBytes 3 _), zeros,
    List.getElem?_append_right (by rw [front]; exact after), front,
    List.getElem?_append_left (by rw [List.length_replicate]; omega), List.getElem?_replicate_of_lt (by omega)]

/-- A read that starts late by what a longer buffer has taken finds 0 in the type byte. -/
theorem late_read {w : Role.slave.Written} {x chunk rest rest' : List Byte} (some : x ≠ [])
    (short : x.length ≤ 10) (front : w.bytes ++ rest' = x ++ (chunk ++ rest)) (full : 40 ≤ chunk.length)
    (same : decode .big chunk = w.header) : w.header.type = 0 := by
  have size := w.length_bytes
  have room : Role.slave.pktsize = 890 := rfl
  have positive := List.length_pos_iff.mpr some
  have type := type_byte full
  have byte : chunk[4]? = w.bytes[x.length + 4]? := by
    have inside : x.length + 4 < w.bytes.length := by omega
    have kept : (w.bytes ++ rest')[x.length + 4]? = w.bytes[x.length + 4]? := List.getElem?_append_left inside
    rw [← kept, front, List.getElem?_append_right (by omega), Nat.add_sub_cancel_left,
      List.getElem?_append_left (by omega)]
  rw [byte, zero_bytes w (by omega) (by omega), same] at type
  exact (Option.some.inj type).symm

theorem not_cut_inside {role : Role} (w : role.Written) {ws : List role.Written} {chunk y : List Byte}
    {chunks : List (List Byte)} (split : w.bytes = chunk ++ y) (cut : y ≠ []) (full : 40 ≤ chunk.length)
    (rest : chunks.flatten = y ++ (ws.map (·.bytes)).flatten) (fullTail : ∀ c ∈ chunks, 40 ≤ c.length)
    (same : chunks.map (decode .big) = ws.map (·.header)) : False := by
  obtain ⟨fill, unknown, filler⟩ := filler_of_suffix w split full
  cases chunks with
  | nil => exact cut (List.append_eq_nil_iff.mp rest.symm).1
  | cons c cs =>
    cases ws with
    | nil => cases same
    | cons w' ws =>
      rw [List.flatten_cons, List.map_cons, List.flatten_cons, filler] at rest
      have type := early_read (List.length_pos_iff.mpr cut) rest (fullTail c List.mem_cons_self) (List.cons.inj same).1
      obtain ⟨fill', shape⟩ := w'.shape
      rw [← type, shape.handled] at unknown
      cases unknown

/-- Only the master has room for more than one message. -/
theorem not_cut_after {role : Role} (w : role.Written) {ws : List role.Written} {chunk x : List Byte}
    {chunks : List (List Byte)} (split : chunk = w.bytes ++ x) (cut : x ≠ []) (short : chunk.length ≤ payloadSize)
    (rest : (ws.map (·.bytes)).flatten = x ++ chunks.flatten) (fullTail : ∀ c ∈ chunks, 40 ≤ c.length)
    (same : chunks.map (decode .big) = ws.map (·.header)) : False := by
  have some := List.length_pos_iff.mpr cut
  rw [split, List.length_append, w.length_bytes] at short
  cases role with
  | master =>
    have size : Role.master.pktsize = payloadSize := rfl
    omega
  | slave =>
    have size : Role.slave.pktsize + 10 = payloadSize := rfl
    cases ws with
    | nil => exact cut (List.append_eq_nil_iff.mp rest.symm).1
    | cons w' ws =>
      cases chunks with
      | nil => cases same
      | cons c cs =>
        rw [List.flatten_cons, List.map_cons, List.flatten_cons] at rest
        have type := late_read cut (by omega) rest (fullTail c List.mem_cons_self) (List.cons.inj same).1
        obtain ⟨fill, shape⟩ := w'.shape
        have handled := shape.handled
        rw [type] at handled
        cases handled

theorem chunks_eq {role : Role} {sent : List role.Written} {chunks : List (List Byte)}
    (stream : chunks.flatten = (sent.map (·.bytes)).flatten) (full : ∀ c ∈ chunks, 40 ≤ c.length)
    (short : ∀ c ∈ chunks, c.length ≤ payloadSize) (same : chunks.map (decode .big) = sent.map (·.header)) :
    chunks = sent.map (·.bytes) := by
  induction sent generalizing chunks with
  | nil => simpa using same
  | cons w ws ih =>
    cases chunks with
    | nil => cases same
    | cons c cs =>
      obtain ⟨-, tail⟩ := List.cons.inj same
      obtain ⟨fullHead, fullTail⟩ := List.forall_mem_cons.mp full
      obtain ⟨shortHead, shortTail⟩ := List.forall_mem_cons.mp short
      have aligned (cut : c = w.bytes) : c :: cs = (w :: ws).map (·.bytes) := by
        rw [List.flatten_cons, List.map_cons, List.flatten_cons, cut] at stream
        rw [List.map_cons, cut, ih (List.append_cancel_left stream) fullTail shortTail tail]
      rw [List.flatten_cons, List.map_cons, List.flatten_cons] at stream
      rcases List.append_eq_append_iff.mp stream with ⟨y, split, rest⟩ | ⟨x, split, rest⟩
      · -- The read ends inside the message or with it.
        by_cases cut : y = []
        · exact aligned (by rw [split, cut, List.append_nil])
        · exact (not_cut_inside w split cut fullHead rest fullTail tail).elim
      · -- It ends with the message or takes the front of the next one.
        by_cases cut : x = []
        · exact aligned (by rw [split, cut, List.append_nil])
        · exact (not_cut_after w split cut shortHead rest fullTail tail).elim

/-! ### Every return of recvmsg -/

/-- The peer acts on exactly the headers sent, whatever the uninitialised buffers of its turns, the
source addresses and the control messages. -/
def Role.FramesKept (role : Role) (e : Endian) (sent : List role.Written) (chunks : List (List Byte)) : Prop :=
  ∀ inputs : List (Stack × Recvmsg),
    List.Forall₂ (fun input chunk => ∃ src cmsgs, input.2 = Recvmsg.message chunk src cmsgs) inputs chunks →
      role.peer.headersActedOn e inputs = sent.map (·.header)

theorem headersActedOn_of_handled {role : Role} {e : Endian} {inputs : List (Stack × Recvmsg)}
    (handled : ∀ h ∈ role.headersActedOn e inputs, role.handles h.type = true) :
    role.headersActedOn e inputs = inputs.map fun input => decode e (input.2.buffer input.1) := by
  induction inputs with
  | nil => rfl
  | cons input rest ih =>
    simp only [Role.headersActedOn] at handled ⊢
    have known := handled _ List.mem_cons_self
    rw [if_pos known] at handled ⊢
    rw [List.map_cons, ih fun h member => handled h (List.mem_cons_of_mem _ member)]

def Stack.filled (b : Byte) : Stack := ⟨List.replicate payloadSize b, [], ⟨0, 0⟩, List.length_replicate⟩

theorem full_of_same {e : Endian} {c : List Byte} (short : c.length ≤ payloadSize)
    (same : decode e ((Recvmsg.message c ⟨0, 0⟩ []).buffer (.filled 0)) =
      decode e ((Recvmsg.message c ⟨0, 0⟩ []).buffer (.filled 1))) : 40 ≤ c.length := by
  by_contra part
  have whole (b : Byte) : (Recvmsg.message c ⟨0, 0⟩ []).buffer (.filled b) =
      c ++ List.replicate (payloadSize - c.length) b := by
    rw [Recvmsg.buffer, memcpy, List.take_of_length_le short, Stack.filled, List.drop_replicate]
  have size (b : Byte) : 40 ≤ (c ++ List.replicate (payloadSize - c.length) b).length := by
    rw [List.length_append, List.length_replicate, payloadSize]
    omega
  have last (b : Byte) : (slice 32 8 (c ++ List.replicate (payloadSize - c.length) b))[7]? = some b := by
    rw [slice, List.getElem?_take_of_lt (by decide), List.getElem?_drop, List.getElem?_append_right (by omega),
      List.getElem?_replicate_of_lt (by rw [payloadSize]; omega)]
  rw [whole, whole, decode_endian e (size 0), decode_endian e (size 1)] at same
  have bytes : slice 32 8 (c ++ List.replicate (payloadSize - c.length) 0) =
      slice 32 8 (c ++ List.replicate (payloadSize - c.length) 1) := by
    rw [← t4_bytes (size 0), same, t4_bytes (size 1)]
  have clash := last 0
  rw [bytes, last 1] at clash
  cases clash

theorem headersActedOn_messages {role : Role} {e : Endian} {sent : List role.Written}
    {inputs : List (Stack × Recvmsg)}
    (delivered : List.Forall₂ (fun input chunk => ∃ src cmsgs, input.2 = Recvmsg.message chunk src cmsgs) inputs
      (sent.map (·.bytes))) :
    role.peer.headersActedOn e inputs = sent.map (·.header) := by
  induction sent generalizing inputs with
  | nil =>
    rw [List.map_nil, List.forall₂_nil_right_iff] at delivered
    rw [delivered]
    rfl
  | cons w ws ih =>
    rw [List.map_cons, List.forall₂_cons_right_iff] at delivered
    obtain ⟨⟨k, r⟩, rest, ⟨src, cmsgs, rfl⟩, tail, rfl⟩ := delivered
    obtain ⟨fill, shape⟩ := w.shape
    have full : 40 ≤ w.bytes.length := by
      rw [w.length_bytes]
      exact (pktsize_bounds role).1
    have head : decode e ((Recvmsg.message w.bytes src cmsgs).buffer k) = w.header := by
      rw [decode_buffer e k src cmsgs full, w.decode_bytes]
    simp only [Role.headersActedOn, head, shape.handled, if_true, List.map_cons, ih tail]

/-- Over a stream socket the peer acts on the headers sent exactly when every return of `recvmsg` is
one whole message. -/
theorem tcp_framing_iff (role : Role) (e : Endian) (sent : List role.Written) (chunks : List (List Byte))
    (stream : chunks.flatten = (sent.map (·.bytes)).flatten)
    (sizes : ∀ c ∈ chunks, 1 ≤ c.length ∧ c.length ≤ payloadSize) :
    role.FramesKept e sent chunks ↔ chunks = sent.map (·.bytes) := by
  have handled : ∀ h ∈ sent.map (·.header), role.peer.handles h.type = true := by
    intro h member
    obtain ⟨w, -, rfl⟩ := List.mem_map.mp member
    obtain ⟨fill, shape⟩ := w.shape
    exact shape.handled
  constructor
  · intro kept
    have filled (b : Byte) : chunks.map (fun c => decode e ((Recvmsg.message c ⟨0, 0⟩ []).buffer (.filled b))) =
        sent.map (·.header) := by
      have acted := kept (chunks.map fun c => (.filled b, .message c ⟨0, 0⟩ [])) (by
        rw [List.forall₂_map_left_iff, List.forall₂_same]
        exact fun c _ => ⟨⟨0, 0⟩, [], rfl⟩)
      have known := headersActedOn_of_handled (acted ▸ handled)
      rw [acted, List.map_map] at known
      exact known.symm
    have full : ∀ c ∈ chunks, 40 ≤ c.length := by
      intro c member
      have same := List.map_eq_map_iff.mp ((filled 0).trans (filled 1).symm) c member
      exact full_of_same (sizes c member).2 same
    refine chunks_eq stream full (fun c member => (sizes c member).2) ((filled 0) ▸ ?_)
    apply List.map_congr_left
    intro c member
    exact (decode_buffer e (.filled 0) ⟨0, 0⟩ [] (full c member)).symm
  · rintro rfl inputs delivered
    exact headersActedOn_messages delivered

def response : Role.slave.Written where
  header := Role.slave.eventHeader 0 0
  bytes := (Role.slave.eventHeader 0 0).message (payloadSize - 10) 0x43
  written := by
    let x := sendUdpPacketsTimestamp ⟨0, 0⟩ Role.slave.pkttype (payloadSize - 10) 1 0
    refine ⟨.little, x, rfl, rfl, Or.inl ⟨⟨0, 0⟩, rfl, ?_⟩⟩
    have kind : x.pkttype = Role.slave.pkttype := rfl
    rw [sendEvent_message .little ⟨0, 0⟩ kind]
    rfl

def responseFollowUp : Role.slave.Written where
  header := Role.slave.followUpHeader 0 0 (Timespec.nanos ⟨0, 0⟩)
  bytes := (Role.slave.followUpHeader 0 0 (Timespec.nanos ⟨0, 0⟩)).message (payloadSize - 10) 0x44
  written := by
    let x : Sender :=
      { sendUdpPacketsTimestamp ⟨0, 0⟩ Role.slave.pkttype (payloadSize - 10) 1 0 with
        mdelayhdr := (Role.slave.eventHeader 0 0).toNetwork .little 0 }
    refine ⟨.little, x, rfl, rfl, Or.inr ⟨0, 0, rfl, rfl, ?_⟩⟩
    have kind : x.pkttype = Role.slave.pkttype := rfl
    have held : x.mdelayhdr = (Role.slave.eventHeader 0 0).toNetwork .little 0 := rfl
    rw [sendFollowUp_message .little kind held]
    rfl

/-- Both messages are there when the master calls `recvmsg`: its buffer takes ten bytes of the
second, and the next return starts inside its header. -/
theorem tcp_framing_merged_read :
    let sent := [response, responseFollowUp]
    let stream := (sent.map (·.bytes)).flatten
    let chunks := [stream.take payloadSize, stream.drop payloadSize]
    let inputs := chunks.map fun c => (Stack.cleared, Recvmsg.message c ⟨0, 0⟩ [])
    chunks.flatten = stream ∧ (∀ c ∈ chunks, 1 ≤ c.length ∧ c.length ≤ payloadSize) ∧
      sent.map (·.header.type) = [2, 3] ∧
      (Role.master.headersActedOn .little inputs).map (·.type) = [2, 0] ∧
      ¬ Role.slave.FramesKept .little sent chunks := by
  intro sent stream chunks inputs
  have acted : (Role.master.headersActedOn .little inputs).map (·.type) = [2, 0] := by decide +kernel
  refine ⟨by decide +kernel, by decide +kernel, rfl, acted, fun kept => ?_⟩
  have same := kept inputs (by
    rw [List.forall₂_map_left_iff, List.forall₂_same]
    exact fun c _ => ⟨⟨0, 0⟩, [], rfl⟩)
  have types := congrArg (List.map (·.type)) same
  rw [show Role.slave.peer = Role.master from rfl, acted] at types
  cases types

theorem tcp_framing_whole_reads :
    let sent := [response, responseFollowUp, response]
    Role.slave.FramesKept .little sent (sent.map (·.bytes)) := by
  intro sent
  refine (tcp_framing_iff .slave .little sent _ rfl ?_).mpr rfl
  intro c member
  obtain ⟨w, -, rfl⟩ := List.mem_map.mp member
  rw [w.length_bytes]
  decide

end Mdelay
