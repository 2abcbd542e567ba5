import Mdelay.Library.Room
import Mdelay.Proofs.Reads
import Mdelay.Proofs.Replies

/-!
# Room for control data

`msg_controllen` is set once for all reads of a call: every `recvmsg` takes it for the room it has and
leaves there what it has written, so a message is offered as much as the one before it took.
-/

namespace Mdelay
open ByteOrder Transition

/-! ### What the kernel writes -/

/-- The bytes that the control data of a message take in the buffer. -/
def controlSize (cmsgs : List Cmsghdr) : Nat := (cmsgs.map Cmsghdr.space).sum

theorem controlSize_cons (c : Cmsghdr) (cs : List Cmsghdr) : controlSize (c :: cs) = c.space + controlSize cs :=
  List.sum_cons

theorem controlSize_txControl (ts : List Timespec) : controlSize (txControl ts) = txControllen := by
  simp [controlSize, txControl, Cmsghdr.space, sizeofCmsghdr, txControllen]

theorem dvd_space (c : Cmsghdr) : 8 ∣ c.space := Nat.dvd_add (by decide) (Nat.dvd_mul_left 8 _)

theorem dvd_cmsgsLen {room : Nat} (words : 8 ∣ room) (cmsgs : List Cmsghdr) : 8 ∣ cmsgsLen room cmsgs := by
  induction cmsgs generalizing room with
  | nil => exact Nat.dvd_zero 8
  | cons c cs ih =>
    have space := dvd_space c
    have rest := ih (Nat.dvd_sub words space)
    rw [cmsgsLen]
    split
    · exact Nat.dvd_zero 8
    · split
      · omega
      · exact words

theorem cmsgsLen_of_le {room : Nat} {cmsgs : List Cmsghdr} (fits : controlSize cmsgs ≤ room) :
    cmsgsLen room cmsgs = controlSize cmsgs := by
  induction cmsgs generalizing room with
  | nil => rfl
  | cons c cs ih =>
    rw [controlSize_cons] at fits ⊢
    have header : sizeofCmsghdr ≤ c.space := Nat.le_add_right _ _
    have data : sizeofCmsghdr + c.dataLen ≤ c.space := by
      unfold Cmsghdr.space
      omega
    rw [cmsgsLen, if_neg (by omega), if_pos (by omega), ih (by omega), Nat.min_eq_right (by omega)]

/-- The room is a number of whole words, so a message is cut as soon as its padding does not fit. -/
theorem putCmsgs_eq_self_iff {room : Nat} (words : 8 ∣ room) (cmsgs : List Cmsghdr) :
    putCmsgs room cmsgs = cmsgs ↔ controlSize cmsgs ≤ room := by
  induction cmsgs generalizing room with
  | nil => exact iff_of_true rfl (Nat.zero_le _)
  | cons c cs ih =>
    rw [controlSize_cons, putCmsgs]
    have header : sizeofCmsghdr ≤ c.space := Nat.le_add_right _ _
    by_cases none : room < sizeofCmsghdr
    · rw [if_pos none]
      exact iff_of_false (fun empty => by cases empty) (by omega)
    · rw [if_neg none]
      by_cases data : sizeofCmsghdr + c.dataLen ≤ room
      · have padded : c.space ≤ room := by
          unfold Cmsghdr.space sizeofCmsghdr at *
          omega
        rw [if_pos data, List.cons.injEq, ih (Nat.dvd_sub words (dvd_space c))]
        constructor
        · rintro ⟨-, rest⟩
          omega
        · intro whole
          exact ⟨rfl, by omega⟩
      · rw [if_neg data]
        refine iff_of_false (fun same => ?_) ?_
        · have cut := congrArg Cmsghdr.dataLen (List.cons.inj same).1
          dsimp only at cut
          omega
        · unfold Cmsghdr.space
          omega

/-! ### The room in a run -/

variable {e : Endian} {x y : Sender} {l : SenderLabel} {c : Call}

/-- What a successful read is offered is enough for the control data of its message. -/
def Sender.HasRoom (x : Sender) (l : SenderLabel) : Prop :=
  ∀ cmsgs ∈ l.message, (x.msg.recv cmsgs).control = cmsgs

instance (x : Sender) (l : SenderLabel) : Decidable (x.HasRoom l) :=
  inferInstanceAs (Decidable (∀ cmsgs ∈ l.message, (x.msg.recv cmsgs).control = cmsgs))

def Sender.room (x : Sender) : Nat := x.msg.msgControllen

def SenderLabel.request (l : SenderLabel) : Option Nat := l.message.map controlSize

theorem handsBack (e : Endian) : HandsBack (Sender.step e) Sender.room SenderLabel.request where
  served taken asked fits := by
    have received := msg_of_step taken
    obtain ⟨cmsgs, found, rfl⟩ := Option.map_eq_some_iff.mp asked
    rw [found] at received
    rw [Sender.room, received]
    exact cmsgsLen_of_le fits
  idle taken silent := by
    have received := msg_of_step taken
    rw [Option.map_eq_none_iff.mp silent] at received
    rw [Sender.room, received]
    rfl

theorem words_of_step (words : 8 ∣ x.room) (taken : x.step e l = some y) : 8 ∣ y.room := by
  have received := msg_of_step taken
  rw [Sender.room, received]
  cases l.message with
  | none => exact words
  | some cmsgs => exact dvd_cmsgsLen words cmsgs

theorem hasRoom_iff (words : 8 ∣ x.room) : x.HasRoom l ↔ Fits Sender.room SenderLabel.request x l := by
  unfold Sender.HasRoom Fits SenderLabel.request
  cases l.message with
  | none => exact iff_of_true (fun cmsgs found => by cases found) (fun size found => by cases found)
  | some cmsgs =>
    have whole := putCmsgs_eq_self_iff words cmsgs
    constructor
    · rintro enough size found
      obtain rfl := Option.some.inj found
      exact whole.mp (enough cmsgs rfl)
    · rintro enough cmsgs' found
      obtain rfl := Option.some.inj found
      exact whole.mpr (enough _ rfl)

/-- Every message is received whole exactly when none has more control data than one before it. -/
theorem run_hasRoom_iff {ls : List SenderLabel} (words : 8 ∣ x.room) (run : Run (Sender.step e) Any x ls y)
    (bounded : ∀ cmsgs ∈ ls.filterMap SenderLabel.message, controlSize cmsgs ≤ x.room) :
    Run (Sender.step e) Sender.HasRoom x ls y ↔
      (ls.filterMap SenderLabel.message).Pairwise fun earlier later => controlSize later ≤ controlSize earlier := by
  have sizes : ls.filterMap SenderLabel.request = (ls.filterMap SenderLabel.message).map controlSize :=
    List.map_filterMap.symm
  rw [run_congr (I := fun x => 8 ∣ x.room) (fun _ _ _ words taken => words_of_step words taken)
    (fun _ _ words => hasRoom_iff words) words]
  rw [run_fits_iff_pairwise (handsBack e) run, sizes, List.pairwise_map]
  rw [sizes]
  exact List.forall_mem_map.mpr bounded

/-! ### The messages of the kernel -/

/-- The timestamp messages of the kernel all have the same size, so none of them is truncated. -/
theorem kernel_messages_whole (dsa : SockaddrIn) (pkttype : PktType) (pktsize : Nat) (n : Int) (seq : BitVec 32)
    {ms : List CallLabel}
    (run : Run (Call.step e) Any (Call.start (sendUdpPacketsTimestamp dsa pkttype pktsize n seq)) ms c) :
    ∃ ls, Run (Sender.step e) Sender.HasRoom (sendUdpPacketsTimestamp dsa pkttype pktsize n seq) ls c.sender ∧
      ls.filterMap SenderLabel.message = c.reads.map Looped.cmsgs := by
  have numbered : c.Numbered :=
    run_invariant (fun _ _ _ numbered _ taken => numbered_step numbered taken) (numbered_start _) run
  obtain ⟨ls, steps, read⟩ := sender_of_run run
  have messages : ls.filterMap SenderLabel.message = c.reads.map Looped.cmsgs := read.symm
  have size : ∀ cmsgs ∈ ls.filterMap SenderLabel.message, controlSize cmsgs = txControllen := by
    rw [messages]
    intro cmsgs member
    obtain ⟨m, found, rfl⟩ := List.mem_map.mp member
    obtain ⟨i, at_i⟩ := List.getElem?_of_mem (List.mem_append_left c.unread found)
    obtain ⟨a, b, t, same, -⟩ := numbered.carries i m at_i
    rw [same, controlSize_txControl]
  let start := sendUdpPacketsTimestamp dsa pkttype pktsize n seq
  have words : 8 ∣ start.room := (by decide : 8 ∣ 1024)
  refine ⟨ls, (run_hasRoom_iff words steps fun cmsgs member => ?_).mpr ?_, messages⟩
  · rw [size cmsgs member]
    exact (by decide : txControllen ≤ 1024)
  · refine List.pairwise_of_forall_mem_list fun earlier before later after => ?_
    rw [size earlier before, size later after]

/-- The read of the NIC timestamp fails. -/
theorem kernel_messages_whole_failed :
    let start := sendUdpPacketsTimestamp ⟨0x0200007f, 2⟩ .delayReq payloadSize 1 0
    ∃ (c : Call) (ls : List SenderLabel),
      Run (Call.step .little) Any (Call.start start) failedNicRead c ∧ c.reads.length = 1 ∧
      Run (Sender.step .little) Sender.HasRoom start ls c.sender ∧
      ls.filterMap SenderLabel.message = c.reads.map Looped.cmsgs := by
  intro start
  obtain ⟨c, run, reads⟩ := run_of_exec (Call.step .little) Any (Call.start start) failedNicRead
    (fun c => c.reads.length) 1 (by decide +kernel)
  obtain ⟨ls, steps, messages⟩ := kernel_messages_whole (e := .little) _ _ _ _ _ run
  exact ⟨c, ls, run, reads, steps, messages⟩

/-! ### Every run -/

/-- In a call for `N` measurements whose messages all have at most 1024 bytes of control data, no read
truncates its message exactly when no message has more control data than one read before it. When the
call returns without a failed read, it has read `4 * N` messages. -/
theorem control_room_iff (e : Endian) (dsa : SockaddrIn) (pkttype : PktType) (pktsize : Nat) (n : Int)
    (seq : BitVec 32) (ls : List SenderLabel)
    (run : Run (Sender.step e) Any (sendUdpPacketsTimestamp dsa pkttype pktsize n seq) ls x)
    (small : ∀ cmsgs ∈ ls.filterMap SenderLabel.message, controlSize cmsgs ≤ 1024) :
    let start := sendUdpPacketsTimestamp dsa pkttype pktsize n seq
    let messages := ls.filterMap SenderLabel.message
    (Run (Sender.step e) Sender.HasRoom start ls x ↔
        messages.Pairwise fun earlier later => controlSize later ≤ controlSize earlier) ∧
      (Run (Sender.step e) Sender.NoFailure start ls x → x.pc = .returned → messages.length = 4 * n.toNat) := by
  intro start messages
  refine ⟨run_hasRoom_iff (by decide : 8 ∣ 1024) run small, fun succeeds returned => ?_⟩
  have counted : x.Counted messages :=
    run_history (fun _ _ _ _ counted succeeds taken => counted_step counted succeeds taken)
      (counted_start dsa pkttype pktsize n seq) succeeds
  rw [Sender.Counted, returned] at counted
  have count : x.n = n := congrArg (fun args => args.2.2.2.1) (args_of_steps run)
  rw [counted, count]

/-- The last message of the first iteration has no timestamp; behind the cut array of the second event
stands what a drained message has left. -/
def shrunkRoom : List SenderLabel :=
  [.event ⟨7, 0⟩, .read (.message (kernelControl ⟨0, 3⟩)) none, .read (.message (nicControl ⟨0, 5⟩)) none, .followUp,
    .read (.message (kernelControl ⟨0, 8⟩)) none, .read (.message [⟨solIp, ipRecverr, 32, []⟩]) none,
    .event ⟨8, 0⟩, .read (.message (kernelControl ⟨1, 3⟩)) none, .read (.message (nicControl ⟨1, 5⟩)) (some ⟨0, 0⟩),
    .followUp, .read (.message (kernelControl ⟨1, 8⟩)) none, .read (.message (nicControl ⟨1, 9⟩)) none]

/-- A message of 48 bytes leaves no room for the NIC timestamps of the second event. -/
theorem control_room_shrinks :
    let start := sendUdpPacketsTimestamp ⟨0x0200007f, 2⟩ .delayReq payloadSize 2 0
    ∃ x, Run (Sender.step .little) Any start shrunkRoom x ∧ x.pc = .returned ∧
      (shrunkRoom.filterMap SenderLabel.message).length = 8 ∧
      (∀ cmsgs ∈ shrunkRoom.filterMap SenderLabel.message, controlSize cmsgs ≤ 1024) ∧
      ¬ Run (Sender.step .little) Sender.HasRoom start shrunkRoom x := by
  intro start
  obtain ⟨x, run, returned⟩ := run_of_exec (Sender.step .little) Any start shrunkRoom (fun x => x.pc) .returned
    (by decide +kernel)
  refine ⟨x, run, returned, rfl, by decide, fun whole => ?_⟩
  have stuck : (exec (Sender.step .little) Sender.HasRoom start shrunkRoom).isSome = false := by decide +kernel
  rw [exec_eq_some.mpr whole] at stuck
  cases stuck

/-- Messages that get shorter are all received whole. -/
theorem control_room_kept :
    let start := sendUdpPacketsTimestamp ⟨0x0200007f, 2⟩ .delayReq payloadSize 1 0
    let timestamps : Cmsghdr := ⟨solSocket, soTimestamping, 48, [⟨0, 0⟩, ⟨0, 0⟩, ⟨0, 5⟩]⟩
    let ls : List SenderLabel :=
      [.event ⟨7, 0⟩, .read (.message (kernelControl ⟨0, 3⟩)) none, .read .eagain none,
        .read (.message [timestamps]) none, .followUp, .read (.message [timestamps]) none, .read (.message []) none]
    ∃ x, Run (Sender.step .little) Sender.HasRoom start ls x ∧ (ls.filterMap SenderLabel.message).length = 4 := by
  intro start timestamps ls
  obtain ⟨x, run, returned⟩ := run_of_exec (Sender.step .little) Sender.NoFailure start ls (fun x => x.pc) .returned
    (by decide +kernel)
  obtain ⟨whole, count⟩ := control_room_iff .little _ _ _ 1 _ ls (run_mono (fun _ _ _ => trivial) run) (by decide)
  exact ⟨x, whole.mpr (by decide), count run returned⟩

end Mdelay
