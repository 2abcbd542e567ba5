import Mdelay.Model.System
import Mdelay.Proofs.Sending

/-!
# A call of send_udp_packets_timestamp beside its error queue

Every `sendto` makes the kernel loop back two messages, and every iteration reads as many as its
packets caused. What is left of them tells where the call stands.
-/

namespace Mdelay
open ByteOrder

def Role.pktsize : Role → Nat
  | .master => payloadSize
  | .slave => payloadSize - 10

def Sender.numbers (x : Sender) (j : Nat) : List Nat :=
  (List.range' j (x.n.toNat - j)).map fun i => (x.seq + BitVec.ofNat 32 i).toNat

/-- Where a call stands: the messages not yet read from the error queue, the numbers whose follow-up
it has still to send, and the NIC time of the event sent before the next follow-up. -/
def Sender.Stands (r : Role) (e : Endian) (x : Sender) (unread : List (List Cmsghdr)) (todo : List Nat)
    (stage : Option Timespec) : Prop :=
  match x.pc with
  | .loopHead => x.i < x.n.toNat ∧ unread = [] ∧ todo = x.numbers x.i ∧ stage = none
  | .kernelRead => x.i < x.n.toNat ∧ todo = x.numbers x.i ∧ ∃ sw nic user,
      unread = [kernelControl sw, nicControl nic] ∧ stage = some nic ∧
        x.mdelayhdr = (r.eventHeader x.currentSeq user).toNetwork e 0
  | .nicRead => x.i < x.n.toNat ∧ todo = x.numbers x.i ∧ ∃ nic user,
      unread = [nicControl nic] ∧ stage = some nic ∧ x.mdelayhdr = (r.eventHeader x.currentSeq user).toNetwork e 0
  | .followUp => x.i < x.n.toNat ∧ todo = x.numbers x.i ∧ ∃ user,
      unread = [] ∧ stage = some x.ts2 ∧ x.mdelayhdr = (r.eventHeader x.currentSeq user).toNetwork e 0
  | .drainKernel => todo = x.numbers (x.i + 1) ∧ stage = none ∧ ∃ ts ts', unread = [txControl ts, txControl ts']
  | .drainNic => todo = x.numbers (x.i + 1) ∧ stage = none ∧ ∃ ts, unread = [txControl ts]
  | .returned => unread = [] ∧ todo = [] ∧ stage = none
  | .exited | .faulted => False

def txControllen : Nat := 112

structure Calling (r : Role) (e : Endian) (dsa : SockaddrIn) (x : Sender) (q : ErrQueue) (todo : List Nat)
    (stage : Option Timespec) : Prop where
  kind : x.pkttype = r.pkttype
  size : x.pktsize = r.pktsize
  dsa : x.dsa = dsa
  room : txControllen ≤ x.msg.msgControllen
  stands : x.Stands r e (q.queued ++ q.pending) todo stage

variable {r : Role} {e : Endian} {dsa : SockaddrIn} {x : Sender} {q : ErrQueue} {todo : List Nat}
  {stage : Option Timespec}

theorem numbers_of_lt {i : Nat} (inside : i < x.n.toNat) :
    x.numbers i = (x.seq + BitVec.ofNat 32 i).toNat :: x.numbers (i + 1) := by
  have split : x.n.toNat - i = (x.n.toNat - (i + 1)) + 1 := by omega
  rw [Sender.numbers, split, List.range'_succ, List.map_cons]
  rfl

theorem numbers_of_le {i : Nat} (past : x.n.toNat ≤ i) : x.numbers i = [] := by
  rw [Sender.numbers, Nat.sub_eq_zero_of_le past]
  rfl

/-- A call enters its loop or has nothing to do. -/
theorem start_cases (dsa : SockaddrIn) (pkttype : PktType) (pktsize : Nat) (n : Int) (seq : BitVec 32) :
    let x := sendUdpPacketsTimestamp dsa pkttype pktsize n seq
    x.pc = .loopHead ∧ 0 < n.toNat ∨ x.pc = .returned ∧ n.toNat = 0 := by
  by_cases some : 0 < n
  · exact Or.inl ⟨if_pos some, Int.pos_iff_toNat_pos.mp some⟩
  · exact Or.inr ⟨if_neg some, by omega⟩

/-- The last read of an iteration leads to the head of the loop, or out of it. -/
theorem advance_cases (x : Sender) :
    x.advance.pc = .loopHead ∧ x.i + 1 < x.n.toNat ∨ x.advance.pc = .returned ∧ x.n.toNat ≤ x.i + 1 := by
  by_cases more : ((x.i + 1 : Nat) : Int) < x.n
  · exact Or.inl ⟨if_pos more, by omega⟩
  · exact Or.inr ⟨if_neg more, by omega⟩

/-! ### Reading the error queue -/

theorem recv_txControl {msg : Msghdr} (room : txControllen ≤ msg.msgControllen) (ts : List Timespec) :
    msg.recv (txControl ts) = ⟨txControl ts, txControllen⟩ := by
  have first : ¬ msg.msgControllen < 16 := by
    rw [txControllen] at room
    omega
  have whole : 64 ≤ msg.msgControllen := by
    rw [txControllen] at room
    omega
  have second : ¬ msg.msgControllen - 64 < 16 := by
    rw [txControllen] at room
    omega
  have rest : 48 ≤ msg.msgControllen - 64 := by
    rw [txControllen] at room
    omega
  simp only [Msghdr.recv, txControl, putCmsgs, cmsgsLen, Cmsghdr.space, sizeofCmsghdr, first, whole, second, rest,
    if_true, if_false, Nat.reduceAdd, Nat.reduceDiv, Nat.reduceMul, Nat.min_eq_right, txControllen]

theorem retrieve_txControl (ts : List Timespec) : retrieveTimestamp (txControl ts) = some ts := rfl

theorem readErrq_fields (got : ErrqRead) (x : Sender) :
    (x.readErrq got).pkttype = x.pkttype ∧ (x.readErrq got).pktsize = x.pktsize ∧ (x.readErrq got).dsa = x.dsa := by
  unfold Sender.readErrq
  split
  · exact ⟨rfl, rfl, rfl⟩
  · exact ⟨rfl, rfl, rfl⟩
  · dsimp only
    split <;> exact ⟨rfl, rfl, rfl⟩
  · dsimp only
    split <;> exact ⟨rfl, rfl, rfl⟩
  · exact ⟨rfl, rfl, rfl⟩
  · exact ⟨rfl, rfl, rfl⟩
  · exact ⟨rfl, rfl, rfl⟩

theorem readErrq_first (room : txControllen ≤ x.msg.msgControllen) (pc : x.pc = .kernelRead) (a b t : Timespec) :
    x.readErrq (.message (txControl [a, b, t])) =
      { x with msg := ⟨txControl [a, b, t], txControllen⟩, ts0 := a, pc := .nicRead } := by
  simp only [Sender.readErrq, pc, ErrqRead.msg, recv_txControl room, retrieve_txControl]
  rfl

theorem readErrq_second (room : txControllen ≤ x.msg.msgControllen) (pc : x.pc = .nicRead) (a b t : Timespec) :
    x.readErrq (.message (txControl [a, b, t])) =
      { x with msg := ⟨txControl [a, b, t], txControllen⟩, ts2 := t, pc := .followUp } := by
  simp only [Sender.readErrq, pc, ErrqRead.msg, recv_txControl room, retrieve_txControl]
  rfl

theorem readErrq_kernelRead (room : txControllen ≤ x.msg.msgControllen) (pc : x.pc = .kernelRead) (sw : Timespec) :
    x.readErrq (.message (kernelControl sw)) =
      { x with msg := ⟨kernelControl sw, txControllen⟩, ts0 := sw, pc := .nicRead } :=
  readErrq_first room pc sw ⟨0, 0⟩ ⟨0, 0⟩

theorem readErrq_nicRead (room : txControllen ≤ x.msg.msgControllen) (pc : x.pc = .nicRead) (nic : Timespec) :
    x.readErrq (.message (nicControl nic)) =
      { x with msg := ⟨nicControl nic, txControllen⟩, ts2 := nic, pc := .followUp } :=
  readErrq_second room pc ⟨0, 0⟩ ⟨0, 0⟩ nic

theorem readErrq_drainKernel (room : txControllen ≤ x.msg.msgControllen) (pc : x.pc = .drainKernel)
    (ts : List Timespec) :
    x.readErrq (.message (txControl ts)) = { x with msg := ⟨txControl ts, txControllen⟩, pc := .drainNic } := by
  simp only [Sender.readErrq, pc, ErrqRead.msg, recv_txControl room]

theorem readErrq_drainNic (room : txControllen ≤ x.msg.msgControllen) (pc : x.pc = .drainNic) (ts : List Timespec) :
    x.readErrq (.message (txControl ts)) = ({ x with msg := ⟨txControl ts, txControllen⟩ } : Sender).advance := by
  simp only [Sender.readErrq, pc, ErrqRead.msg, recv_txControl room]

theorem stands_advance (waiting : todo = x.numbers (x.i + 1)) (idle : stage = none) :
    x.advance.Stands r e [] todo stage := by
  rcases advance_cases x with ⟨head, more⟩ | ⟨done, last⟩
  · rw [Sender.Stands, head]
    exact ⟨more, rfl, waiting, idle⟩
  · rw [Sender.Stands, done]
    exact ⟨rfl, by rw [waiting, numbers_of_le last], idle⟩

theorem calling_message {cmsgs : List Cmsghdr} {unread : List (List Cmsghdr)}
    (room : txControllen ≤ x.msg.msgControllen) (reads : x.pc.reads = true)
    (stands : x.Stands r e (cmsgs :: unread) todo stage) :
    txControllen ≤ (x.readErrq (.message cmsgs)).msg.msgControllen ∧
      (x.readErrq (.message cmsgs)).Stands r e unread todo stage := by
  cases pc : x.pc with
  | kernelRead =>
    rw [Sender.Stands, pc] at stands
    obtain ⟨inside, waiting, sw, nic, user, same, staged, held⟩ := stands
    obtain ⟨rfl, rfl⟩ := List.cons.inj same
    rw [readErrq_kernelRead room pc]
    exact ⟨Nat.le_refl _, inside, waiting, nic, user, rfl, staged, held⟩
  | nicRead =>
    rw [Sender.Stands, pc] at stands
    obtain ⟨inside, waiting, nic, user, same, staged, held⟩ := stands
    obtain ⟨rfl, rfl⟩ := List.cons.inj same
    rw [readErrq_nicRead room pc]
    exact ⟨Nat.le_refl _, inside, waiting, user, rfl, staged, held⟩
  | drainKernel =>
    rw [Sender.Stands, pc] at stands
    obtain ⟨waiting, idle, ts, ts', same⟩ := stands
    obtain ⟨rfl, rfl⟩ := List.cons.inj same
    rw [readErrq_drainKernel room pc]
    exact ⟨Nat.le_refl _, waiting, idle, ts', rfl⟩
  | drainNic =>
    rw [Sender.Stands, pc] at stands
    obtain ⟨waiting, idle, ts, same⟩ := stands
    obtain ⟨rfl, rfl⟩ := List.cons.inj same
    rw [readErrq_drainNic room pc]
    exact ⟨Nat.le_refl _, stands_advance waiting idle⟩
  | loopHead | followUp | returned | exited | faulted =>
    rw [pc] at reads
    cases reads

/-! ### The steps of a call -/

theorem calling_start (r : Role) (e : Endian) (dsa : SockaddrIn) (n : Int) (seq : BitVec 32) :
    let x := sendUdpPacketsTimestamp dsa r.pkttype r.pktsize n seq
    Calling r e dsa x ⟨[], []⟩ (x.numbers 0) none := by
  intro x
  refine ⟨rfl, rfl, rfl, (by decide : txControllen ≤ 1024), ?_⟩
  have count : x.n = n := rfl
  rcases start_cases dsa r.pkttype r.pktsize n seq with ⟨head, some⟩ | ⟨done, none⟩
  · rw [Sender.Stands, head, count]
    exact ⟨some, rfl, rfl, rfl⟩
  · rw [Sender.Stands, done]
    exact ⟨rfl, numbers_of_le (by rw [count]; exact none.le), rfl⟩

theorem calling_event (calling : Calling r e dsa x q todo stage) (head : x.pc = .loopHead) (tv : Timeval)
    (sw nic : Timespec) :
    ∃ k rest x', todo = k :: rest ∧ stage = none ∧ k < 2 ^ 32 ∧
      x.sendEvent e tv =
        (x', some ((r.eventHeader (BitVec.ofNat 32 k) tv.nanos).message r.pktsize r.eventFill)) ∧
      Calling r e dsa x' (q.sendto sw nic) todo (some nic) := by
  obtain ⟨kind, size, dst, room, stands⟩ := calling
  rw [Sender.Stands, head] at stands
  obtain ⟨inside, empty, waiting, idle⟩ := stands
  obtain ⟨queued, pending⟩ := List.append_eq_nil_iff.mp empty
  have number : BitVec.ofNat 32 x.currentSeq.toNat = x.currentSeq := by
    rw [BitVec.ofNat_toNat, BitVec.setWidth_eq]
  have sent := sendEvent_message e tv kind
  let h := r.eventHeader x.currentSeq tv.nanos
  let x' : Sender :=
    { x with mdelayhdr := h.toNetwork e 0, payload := h.message x.pktsize r.eventFill, pc := .kernelRead }
  refine ⟨x.currentSeq.toNat, x.numbers (x.i + 1), x', by rw [waiting, numbers_of_lt inside]; rfl, idle,
    x.currentSeq.isLt, ?_, kind, size, dst, room, inside, waiting, sw, nic, tv.nanos, ?_, rfl, rfl⟩
  · rw [number, ← size]
    exact sent
  · simp only [ErrQueue.sendto, queued, pending, List.nil_append]

theorem calling_followUp (calling : Calling r e dsa x q todo stage) (ready : x.pc = .followUp) (sw nic : Timespec) :
    ∃ k rest u user x', todo = k :: rest ∧ stage = some u ∧ k < 2 ^ 32 ∧
      x.sendFollowUp e =
        (x', some ((r.followUpHeader (BitVec.ofNat 32 k) user u.nanos).message r.pktsize r.followUpFill)) ∧
      Calling r e dsa x' (q.sendto sw nic) rest none := by
  obtain ⟨kind, size, dst, room, stands⟩ := calling
  rw [Sender.Stands, ready] at stands
  obtain ⟨inside, waiting, user, empty, staged, held⟩ := stands
  obtain ⟨queued, pending⟩ := List.append_eq_nil_iff.mp empty
  have number : BitVec.ofNat 32 x.currentSeq.toNat = x.currentSeq := by
    rw [BitVec.ofNat_toNat, BitVec.setWidth_eq]
  have sent := sendFollowUp_message e kind held
  let h := r.followUpHeader x.currentSeq user x.ts2.nanos
  let x' : Sender :=
    { x with mdelayhdr := h.toNetwork e 0, payload := h.message x.pktsize r.followUpFill, pc := .drainKernel }
  refine ⟨x.currentSeq.toNat, x.numbers (x.i + 1), x.ts2, user, x',
    by rw [waiting, numbers_of_lt inside]; rfl, staged,
    x.currentSeq.isLt, ?_, kind, size, dst, room, rfl, rfl, [sw, ⟨0, 0⟩, ⟨0, 0⟩], [⟨0, 0⟩, ⟨0, 0⟩, nic], ?_⟩
  · rw [number, ← size]
    exact sent
  · simp only [ErrQueue.sendto, queued, pending, List.nil_append]
    rfl

theorem calling_poll (calling : Calling r e dsa x q todo stage) (reads : x.pc.reads = true) :
    Calling r e dsa (x.readErrq q.recvmsg.1) q.recvmsg.2 todo stage := by
  obtain ⟨kind, size, dst, room, stands⟩ := calling
  cases queued : q.queued with
  | nil =>
    have again : q.recvmsg = (.eagain, q) := by rw [ErrQueue.recvmsg, queued]
    have same : x.readErrq .eagain = x := rfl
    rw [again, same]
    exact ⟨kind, size, dst, room, stands⟩
  | cons cmsgs rest =>
    have got : q.recvmsg = (.message cmsgs, { q with queued := rest }) := by rw [ErrQueue.recvmsg, queued]
    rw [queued, List.cons_append] at stands
    obtain ⟨room', stands'⟩ := calling_message room reads stands
    have fields := readErrq_fields (.message cmsgs) x
    rw [got]
    exact ⟨fields.1.trans kind, fields.2.1.trans size, fields.2.2.trans dst, room', stands'⟩

theorem calling_loopback {q' : ErrQueue} (calling : Calling r e dsa x q todo stage)
    (looped : q.loopback = some q') : Calling r e dsa x q' todo stage := by
  obtain ⟨kind, size, dst, room, stands⟩ := calling
  refine ⟨kind, size, dst, room, ?_⟩
  cases pending : q.pending with
  | nil =>
    rw [ErrQueue.loopback, pending] at looped
    cases looped
  | cons cmsgs rest =>
    rw [ErrQueue.loopback, pending] at looped
    obtain rfl := Option.some.inj looped
    rw [pending] at stands
    rwa [List.append_assoc, List.singleton_append]

end Mdelay
