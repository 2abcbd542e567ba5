import Mdelay.Proofs.Framing
import Mdelay.Proofs.Index
import Mdelay.Model.Stream

/-!
# A read that is not one message

Where a stream socket returns part of a message or more than one, the next read starts beside a
header. What is there instead of one stops the program.
-/

namespace Mdelay
open ByteOrder

variable {c : Config} {r : Role}

/-- What `r` has not read of its stream, beside the messages whose headers it has not seen. -/
inductive Misread (r : Role) : List Byte → List Byte → Prop
  | inside {w : r.peer.Written} {front rest : List Byte} (behind : List Byte) (split : w.bytes = front ++ rest)
      (full : 40 ≤ front.length) (cut : rest ≠ []) : Misread r (rest ++ behind) behind
  | past {x : List Byte} (stream : List Byte) (some : x ≠ []) (short : x.length + r.peer.pktsize ≤ payloadSize) :
      Misread r stream (x ++ stream)

theorem Misread.append {stream behind : List Byte} (misread : Misread r stream behind) (more : List Byte) :
    Misread r (stream ++ more) (behind ++ more) := by
  cases misread with
  | inside behind split full cut =>
    rw [List.append_assoc]
    exact .inside _ split full cut
  | past stream some short =>
    rw [List.append_assoc]
    exact .past _ some short

theorem Misread.ne_nil {stream behind : List Byte} (misread : Misread r stream behind)
    (message : r.peer.pktsize ≤ behind.length) : stream ≠ [] := by
  intro empty
  cases misread with
  | inside behind split full cut => exact cut (List.append_eq_nil_iff.mp empty).1
  | past stream some short =>
    rw [empty, List.append_nil] at message
    have large : payloadSize < 2 * r.peer.pktsize := by cases r <;> decide
    omega

/-- After a read of `size` bytes that started with a message. -/
theorem misread_of_read (w : r.peer.Written) (behind : List Byte) {size : Nat} (full : 40 ≤ size)
    (most : size ≤ payloadSize) (there : size ≤ (w.bytes ++ behind).length) :
    (if size = r.peer.pktsize then (w.bytes ++ behind).drop size = behind
      else Misread r ((w.bytes ++ behind).drop size) behind) := by
  have length := w.length_bytes
  split
  · rename_i whole
    rw [whole, ← length, List.drop_left]
  · rename_i part
    rcases Nat.lt_or_gt_of_ne part with less | more
    · rw [List.drop_append_of_le_length (by omega)]
      refine .inside behind (List.take_append_drop size w.bytes).symm ?_ fun empty => ?_
      · rw [List.length_take]
        omega
      · have := List.drop_eq_nil_iff.mp empty
        omega
    · rw [List.length_append] at there
      have split : behind = behind.take (size - r.peer.pktsize) ++ (w.bytes ++ behind).drop size := by
        rw [List.drop_append, List.drop_eq_nil_of_le (by omega), List.nil_append, length, List.take_append_drop]
      have taken : (behind.take (size - r.peer.pktsize)).length = size - r.peer.pktsize := by
        rw [List.length_take]
        omega
      have past : Misread r ((w.bytes ++ behind).drop size)
          (behind.take (size - r.peer.pktsize) ++ (w.bytes ++ behind).drop size) := by
        refine .past _ (fun empty => ?_) (by omega)
        rw [empty] at taken
        rw [List.length_nil] at taken
        omega
      rwa [← split] at past

/-! ### What the next read finds -/

theorem Role.Written.message {role : Role} (w : role.Written) :
    ∃ fill, (fill = role.eventFill ∨ fill = role.followUpFill) ∧ w.bytes = w.header.message role.pktsize fill := by
  obtain ⟨header, bytes, e, x, kind, size, ⟨tv, rfl, sent⟩ | ⟨seq, user, holds, rfl, sent⟩⟩ := w
  · rw [sendEvent_message e tv kind, size] at sent
    exact ⟨_, Or.inl rfl, (Option.some.inj sent).symm⟩
  · rw [sendFollowUp_message e kind holds, size] at sent
    exact ⟨_, Or.inr rfl, (Option.some.inj sent).symm⟩

/-- Behind the header there is nothing but filler, which is no type and not 0. -/
theorem rest_of_written {w : r.peer.Written} {front rest : List Byte} (split : w.bytes = front ++ rest)
    (full : 40 ≤ front.length) :
    ∃ fill, r.handles fill = false ∧ 1 ≤ fill.toNat ∧ rest = List.replicate rest.length fill := by
  obtain ⟨fill, kind, message⟩ := w.message
  have tail : rest = w.bytes.drop front.length := by rw [split, List.drop_left]
  refine ⟨fill, ?_, ?_, ?_⟩
  · rcases kind with rfl | rfl <;> cases r <;> rfl
  · rcases kind with rfl | rfl <;> cases r <;> decide
  · rw [tail, message, Header.message, List.drop_append, List.drop_eq_nil_of_le (by simpa using full),
      List.nil_append, List.drop_replicate, List.length_replicate]

theorem ofBeBytes_cons (b : Byte) (bs : List Byte) : b.toNat * 256 ^ bs.length ≤ ofBeBytes (b :: bs) := by
  rw [ofBeBytes, List.reverse_cons, ofLeBytes_append, List.length_reverse, ofLeBytes, ofLeBytes, Nat.mul_comm]
  exact Nat.le_add_left ..

/-- No type of the peer, or a number that no array has room for. -/
theorem header_misread {stream behind chunk rest : List Byte} (misread : Misread r stream behind)
    (ws : List r.peer.Written) (messages : behind = (ws.map (·.bytes)).flatten) (front : stream = chunk ++ rest)
    (full : 40 ≤ chunk.length) :
    r.handles (decode .big chunk).type = false ∨ 2 ^ 24 ≤ ofBeBytes (chunk.take 4) := by
  have type := type_byte full
  cases misread with
  | @inside w head tail _ split past cut =>
    obtain ⟨fill, unknown, positive, filler⟩ := rest_of_written split past
    have some := List.length_pos_iff.mpr cut
    have byte (j : Nat) (early : j < tail.length) (inside : j < 40) : chunk[j]? = Option.some fill := by
      have kept : (chunk ++ rest)[j]? = chunk[j]? := List.getElem?_append_left (by omega)
      rw [← kept, ← front, List.getElem?_append_left early, filler, List.getElem?_replicate_of_lt early]
    by_cases long : 4 < tail.length
    · rw [byte 4 long (by omega)] at type
      rw [← Option.some.inj type]
      exact Or.inl unknown
    · refine Or.inr ?_
      obtain ⟨b, bs, rfl⟩ := List.exists_cons_of_length_pos (show 0 < chunk.length by omega)
      have first := byte 0 some (by omega)
      rw [List.getElem?_cons_zero] at first
      rw [Option.some.inj first, List.take_succ_cons]
      have least := ofBeBytes_cons fill (bs.take 3)
      rw [List.length_cons] at full
      rw [List.length_take, Nat.min_eq_left (by omega)] at least
      omega
  | @past x _ some short =>
    refine Or.inl ?_
    have positive := List.length_pos_iff.mpr some
    cases r with
    | slave =>
      have size : Role.slave.peer.pktsize = payloadSize := rfl
      omega
    | master =>
      have size : Role.master.peer.pktsize + 10 = payloadSize := rfl
      cases ws with
      | nil => exact absurd (List.append_eq_nil_iff.mp messages).1 some
      | cons w ws =>
        rw [List.map_cons, List.flatten_cons] at messages
        have length := w.length_bytes
        have byte : chunk[4]? = w.bytes[x.length + 4]? := by
          have kept : (chunk ++ rest)[4]? = chunk[4]? := List.getElem?_append_left (by omega)
          have inside : x.length + 4 < w.bytes.length := by
            rw [length]
            have : payloadSize = 900 := rfl
            omega
          rw [← kept, ← front, ← List.getElem?_append_left inside, ← messages,
            List.getElem?_append_right (by omega), Nat.add_sub_cancel_left]
        have zero : w.bytes[x.length + 4]? = Option.some 0 := zero_bytes w (by omega) (by omega)
        rw [byte, zero] at type
        rw [← Option.some.inj type]
        rfl

/-! ### What the program does with it -/

theorem handled_of_handles {role : Role} {type : BitVec 8} (known : role.handles type = true) (e : Endian)
    (measureNumber : BitVec 32) :
    type = (role.program e measureNumber).event.code ∨ type = (role.program e measureNumber).followUp.code := by
  unfold Role.handles at known
  cases found : PktType.ofCode type with
  | none =>
    rw [found] at known
    cases role <;> cases known
  | some p =>
    rw [PktType.ofCode_eq_some.mp found]
    rw [found] at known
    cases role <;> cases p <;> first | exact Or.inl rfl | exact Or.inr rfl | cases known

/-- In the slave `cfg` has a peer as soon as the counter has left 0. -/
def Ready (c : Config) : (r : Role) → (c.program r).State → Prop
  | .master, _ => True
  | .slave, st => @Slave.State.Ready (c.program .slave).cap st

theorem stops_of_misread (k : Stack) {bytes : List Byte} (src : SockaddrIn) {cmsgs : List Cmsghdr}
    (full : 40 ≤ bytes.length) (timed : nicTime cmsgs ≠ none) {st : (c.program r).State} (ready : Ready c r st)
    (room : (c.program r).cap ≤ 2 ^ 24)
    (wrong : r.handles (decode .big bytes).type = false ∨ 2 ^ 24 ≤ ofBeBytes (bytes.take 4)) :
    (c.program r).doRecv k (.message bytes src cmsgs) st = .exited ∨
      (c.program r).doRecv k (.message bytes src cmsgs) st = .faulted := by
  have some : (Recvmsg.message bytes src cmsgs).got ≠ 0 := by
    refine Int.ne_of_gt (got_pos bytes src cmsgs ?_)
    rintro rfl
    cases full
  have decoded := decode_buffer (c.endian r) k src cmsgs full
  cases known : r.handles (decode .big bytes).type with
  | false =>
    refine Or.inl ?_
    rw [← decoded] at known
    cases r with
    | master => exact (Master.exited_iff _ k some st).mpr known
    | slave => exact (Slave.exited_iff _ k some ready).mpr known
  | true =>
    refine Or.inr ?_
    have large := wrong.resolve_left (by rw [known]; exact Bool.noConfusion)
    have outside : ¬ ofBeBytes (bytes.take 4) < (c.program r).cap := by omega
    have handled := handled_of_handles known (c.endian r) (c.measureNumber r)
    cases r with
    | master => exact (Master.faulted_iff _ _ k src full handled timed st).mpr outside
    | slave => exact (Slave.faulted_iff _ _ k src full handled timed ready).mpr outside

end Mdelay
