import Mdelay.Library.Transition
import Mdelay.Proofs.Attribution

/-!
# A call among any messages

`send_udp_packets_timestamp` as it goes on with whatever its error-queue reads return, beside no queue
of its own: the messages need not be those the kernel loops back.
-/

namespace Mdelay
open ByteOrder Transition

/-! ### The steps -/

/-- `past` is what stands behind an array that lacks the entry read, if that can be read at all. -/
inductive SenderLabel where
  | event (tv : Timeval)
  | followUp
  | read (got : ErrqRead) (past : Option Timespec)

/-- `readErrq`, where an entry that the array found is too short for is taken from behind it. -/
def Sender.readPast (past : Option Timespec) (got : ErrqRead) (x : Sender) : Sender :=
  let read := x.readErrq got
  match past with
  | none => read
  | some ts =>
    if read.pc = .faulted ∧ (retrieveTimestamp read.msg.control).isSome then
      match x.pc with
      | .kernelRead => { read with ts0 := ts, pc := .nicRead }
      | .nicRead => { read with ts2 := ts, pc := .followUp }
      | _ => read
    else read

def Sender.step (e : Endian) (x : Sender) : SenderLabel → Option Sender
  | .event tv => if x.pc = .loopHead then some (x.sendEvent e tv).1 else none
  | .followUp => if x.pc = .followUp then some (x.sendFollowUp e).1 else none
  | .read got past => if x.pc.reads then some (x.readPast past got) else none

/-- The message a successful read takes from the error queue. -/
def SenderLabel.message : SenderLabel → Option (List Cmsghdr)
  | .read (.message cmsgs) _ => some cmsgs
  | _ => none

variable {e : Endian} {x y : Sender} {l : SenderLabel}

theorem Sender.step_event {tv : Timeval} : x.step e (.event tv) = some y ↔
    x.pc = .loopHead ∧ (x.sendEvent e tv).1 = y := by
  simp [step]

theorem Sender.step_followUp : x.step e .followUp = some y ↔ x.pc = .followUp ∧ (x.sendFollowUp e).1 = y := by
  simp [step]

theorem Sender.step_read {got : ErrqRead} {past : Option Timespec} : x.step e (.read got past) = some y ↔
    x.pc.reads = true ∧ x.readPast past got = y := by
  simp [step]

theorem sendEvent_msg (e : Endian) (tv : Timeval) (x : Sender) : (x.sendEvent e tv).1.msg = x.msg := by
  unfold Sender.sendEvent
  dsimp only
  split <;> rfl

theorem sendFollowUp_msg (e : Endian) (x : Sender) : (x.sendFollowUp e).1.msg = x.msg := by
  unfold Sender.sendFollowUp
  dsimp only
  split <;> rfl

theorem readErrq_msg (reads : x.pc.reads = true) (got : ErrqRead) : (x.readErrq got).msg = got.msg x.msg := by
  unfold Sender.readErrq
  split
  · rfl
  · rfl
  · dsimp only
    split <;> rfl
  · dsimp only
    split <;> rfl
  · rfl
  · rfl
  · rename_i kernel nic drain last _
    cases pc : x.pc with
    | kernelRead => exact absurd pc kernel
    | nicRead => exact absurd pc nic
    | drainKernel => exact absurd pc drain
    | drainNic => exact absurd pc last
    | loopHead | followUp | returned | exited | faulted =>
      rw [pc] at reads
      cases reads

/-- A timestamp from behind an array changes neither what was received nor the arguments. -/
theorem readPast_fields (past : Option Timespec) (got : ErrqRead) (x : Sender) :
    (x.readPast past got).msg = (x.readErrq got).msg ∧ (x.readPast past got).args = (x.readErrq got).args := by
  unfold Sender.readPast
  cases past with
  | none => exact ⟨rfl, rfl⟩
  | some ts =>
    dsimp only
    split
    · split <;> exact ⟨rfl, rfl⟩
    · exact ⟨rfl, rfl⟩

theorem args_of_step (taken : x.step e l = some y) : y.args = x.args := by
  cases l with
  | event tv =>
    obtain ⟨-, rfl⟩ := Sender.step_event.mp taken
    exact sendEvent_args e tv x
  | followUp =>
    obtain ⟨-, rfl⟩ := Sender.step_followUp.mp taken
    exact sendFollowUp_args e x
  | read got past =>
    obtain ⟨-, rfl⟩ := Sender.step_read.mp taken
    exact (readPast_fields past got x).2.trans (readErrq_args got x)

theorem args_of_steps {ok : Sender → SenderLabel → Prop} {ls : List SenderLabel} (run : Run (Sender.step e) ok x ls y) :
    y.args = x.args :=
  run_invariant (I := fun y => y.args = x.args) (fun _ _ _ same _ taken => (args_of_step taken).trans same) rfl run

theorem msg_of_step (taken : x.step e l = some y) :
    y.msg = match l.message with
      | some cmsgs => x.msg.recv cmsgs
      | none => x.msg := by
  cases l with
  | event tv =>
    obtain ⟨-, rfl⟩ := Sender.step_event.mp taken
    exact sendEvent_msg e tv x
  | followUp =>
    obtain ⟨-, rfl⟩ := Sender.step_followUp.mp taken
    exact sendFollowUp_msg e x
  | read got past =>
    obtain ⟨reads, rfl⟩ := Sender.step_read.mp taken
    rw [(readPast_fields past got x).1, readErrq_msg reads]
    cases got <;> rfl

/-! ### How many messages are read -/

/-- No read fails with an errno other than EAGAIN. -/
def Sender.NoFailure (_ : Sender) : SenderLabel → Prop
  | .read .failure _ => False
  | _ => True

instance (x : Sender) : (l : SenderLabel) → Decidable (x.NoFailure l)
  | .read .failure _ => .isFalse id
  | .event _ | .followUp | .read (.message _) _ | .read .eagain _ => .isTrue trivial

/-- Every iteration has read as many messages as it has read loops behind it. -/
def Sender.Counted (x : Sender) (messages : List (List Cmsghdr)) : Prop :=
  match x.pc with
  | .loopHead | .kernelRead => x.i < x.n.toNat ∧ messages.length = 4 * x.i
  | .nicRead => x.i < x.n.toNat ∧ messages.length = 4 * x.i + 1
  | .followUp | .drainKernel => x.i < x.n.toNat ∧ messages.length = 4 * x.i + 2
  | .drainNic => x.i < x.n.toNat ∧ messages.length = 4 * x.i + 3
  | .returned => messages.length = 4 * x.n.toNat
  | .exited | .faulted => True

theorem counted_start (dsa : SockaddrIn) (pkttype : PktType) (pktsize : Nat) (n : Int) (seq : BitVec 32) :
    (sendUdpPacketsTimestamp dsa pkttype pktsize n seq).Counted [] := by
  rcases start_cases dsa pkttype pktsize n seq with ⟨head, some⟩ | ⟨done, none⟩
  · rw [Sender.Counted, head]
    exact ⟨some, rfl⟩
  · rw [Sender.Counted, done]
    change 0 = 4 * n.toNat
    rw [none]

/-- The first two loops go on with the next statement unless there is no array to read from. -/
theorem readPast_timed {next : SendPc}
    (timed : x.pc = .kernelRead ∧ next = .nicRead ∨ x.pc = .nicRead ∧ next = .followUp)
    (past : Option Timespec) (cmsgs : List Cmsghdr) :
    let y := x.readPast past (.message cmsgs)
    (y.pc = next ∨ y.pc = .faulted) ∧ y.i = x.i ∧ y.n = x.n := by
  rcases timed with ⟨pc, rfl⟩ | ⟨pc, rfl⟩
  all_goals
    simp only [Sender.readPast, Sender.readErrq, pc]
    split
    · split
      · exact ⟨Or.inl rfl, rfl, rfl⟩
      · exact ⟨Or.inr rfl, rfl, rfl⟩
    · split
      · exact ⟨Or.inl rfl, rfl, rfl⟩
      · split
        · exact ⟨Or.inl rfl, rfl, rfl⟩
        · exact ⟨Or.inr rfl, rfl, rfl⟩

theorem readPast_of_not_faulted {past : Option Timespec} {got : ErrqRead} (goesOn : (x.readErrq got).pc ≠ .faulted) :
    x.readPast past got = x.readErrq got := by
  unfold Sender.readPast
  cases past with
  | none => rfl
  | some ts => exact if_neg fun faulted => goesOn faulted.1

theorem not_faulted_of_reads (reads : x.pc.reads = true) : x.pc ≠ .faulted := by
  intro faulted
  rw [faulted] at reads
  cases reads

theorem not_faulted_of_advance (x : Sender) : x.advance.pc ≠ .faulted := by
  rcases advance_cases x with ⟨pc, -⟩ | ⟨pc, -⟩
  all_goals
    rw [pc]
    decide

theorem counted_faulted {messages : List (List Cmsghdr)} (pc : x.pc = .faulted) : x.Counted messages := by
  rw [Sender.Counted, pc]
  trivial

theorem counted_advance {messages : List (List Cmsghdr)} (inside : x.i < x.n.toNat)
    (count : messages.length = 4 * x.i + 4) : x.advance.Counted messages := by
  rcases advance_cases x with ⟨head, more⟩ | ⟨done, last⟩
  · rw [Sender.Counted, head]
    exact ⟨more, count⟩
  · rw [Sender.Counted, done]
    change messages.length = 4 * x.n.toNat
    omega

theorem counted_message {messages : List (List Cmsghdr)} (counted : x.Counted messages) (reads : x.pc.reads = true)
    (past : Option Timespec) (cmsgs : List Cmsghdr) :
    (x.readPast past (.message cmsgs)).Counted (messages ++ [cmsgs]) := by
  unfold Sender.Counted at counted
  cases pc : x.pc with
  | kernelRead =>
    rw [pc] at counted
    obtain ⟨next | faulted, i, n⟩ := readPast_timed (Or.inl ⟨pc, rfl⟩) past cmsgs
    · rw [Sender.Counted, next, i, n, List.length_append, counted.2]
      exact ⟨counted.1, rfl⟩
    · exact counted_faulted faulted
  | nicRead =>
    rw [pc] at counted
    obtain ⟨next | faulted, i, n⟩ := readPast_timed (Or.inr ⟨pc, rfl⟩) past cmsgs
    · rw [Sender.Counted, next, i, n, List.length_append, counted.2]
      exact ⟨counted.1, rfl⟩
    · exact counted_faulted faulted
  | drainKernel =>
    rw [pc] at counted
    have drained : x.readErrq (.message cmsgs) = { x with msg := x.msg.recv cmsgs, pc := .drainNic } := by
      simp only [Sender.readErrq, pc, ErrqRead.msg]
    rw [readPast_of_not_faulted (by rw [drained]; exact fun absurd => by cases absurd), drained]
    refine ⟨counted.1, ?_⟩
    rw [List.length_append, counted.2]
    rfl
  | drainNic =>
    rw [pc] at counted
    have advanced := readErrq_last pc cmsgs
    rw [readPast_of_not_faulted (by rw [advanced]; exact not_faulted_of_advance _), advanced]
    refine counted_advance counted.1 ?_
    rw [List.length_append, counted.2]
    rfl
  | loopHead | followUp | returned | exited | faulted =>
    rw [pc] at reads
    cases reads

theorem counted_step {messages : List (List Cmsghdr)} (counted : x.Counted messages) (succeeds : x.NoFailure l)
    (taken : x.step e l = some y) : y.Counted (messages ++ l.message.toList) := by
  cases l with
  | event tv =>
    obtain ⟨head, rfl⟩ := Sender.step_event.mp taken
    rw [Sender.Counted, head] at counted
    change (x.sendEvent e tv).1.Counted (messages ++ [])
    rw [List.append_nil]
    unfold Sender.sendEvent
    dsimp only
    split
    · exact counted
    · exact counted
    · trivial
  | followUp =>
    obtain ⟨ready, rfl⟩ := Sender.step_followUp.mp taken
    rw [Sender.Counted, ready] at counted
    change (x.sendFollowUp e).1.Counted (messages ++ [])
    rw [List.append_nil]
    unfold Sender.sendFollowUp
    dsimp only
    split
    · exact counted
    · exact counted
    · trivial
  | read got past =>
    obtain ⟨reads, rfl⟩ := Sender.step_read.mp taken
    cases got with
    | message cmsgs => exact counted_message counted reads past cmsgs
    | eagain =>
      have again : x.readPast past .eagain = x := readPast_of_not_faulted (not_faulted_of_reads reads)
      change (x.readPast past .eagain).Counted (messages ++ [])
      rw [List.append_nil, again]
      exact counted
    | failure => exact succeeds.elim

/-! ### Beside the error queue -/

variable {c d : Call} {m : CallLabel}

theorem sendto_sender (c : Call) (sw nic : Timespec) (out : Sender × Option (List Byte)) :
    (c.sendto sw nic out).sender = out.1 ∧ (c.sendto sw nic out).reads = c.reads := by
  obtain ⟨sender, bytes⟩ := out
  cases bytes <;> exact ⟨rfl, rfl⟩

/-- A call beside its error queue takes the steps of a call among any messages. -/
theorem sender_of_step (taken : c.step e m = some d) :
    (d.sender = c.sender ∧ d.reads = c.reads) ∨ ∃ l, c.sender.step e l = some d.sender ∧
      d.reads.map Looped.cmsgs = c.reads.map Looped.cmsgs ++ l.message.toList := by
  cases m with
  | event tv sw nic =>
    obtain ⟨head, rfl⟩ := Call.step_event.mp taken
    obtain ⟨sender, reads⟩ := sendto_sender c sw nic (c.sender.sendEvent e tv)
    refine Or.inr ⟨.event tv, Sender.step_event.mpr ⟨head, sender.symm⟩, ?_⟩
    change (c.sendto sw nic (c.sender.sendEvent e tv)).reads.map Looped.cmsgs = _ ++ []
    rw [reads, List.append_nil]
  | followUp sw nic =>
    obtain ⟨ready, rfl⟩ := Call.step_followUp.mp taken
    obtain ⟨sender, reads⟩ := sendto_sender c sw nic (c.sender.sendFollowUp e)
    refine Or.inr ⟨.followUp, Sender.step_followUp.mpr ⟨ready, sender.symm⟩, ?_⟩
    change (c.sendto sw nic (c.sender.sendFollowUp e)).reads.map Looped.cmsgs = _ ++ []
    rw [reads, List.append_nil]
  | loopback =>
    obtain ⟨m, rest, -, rfl⟩ := Call.step_loopback.mp taken
    exact Or.inl ⟨rfl, rfl⟩
  | poll =>
    obtain ⟨reads, rfl⟩ := Call.step_poll.mp taken
    unfold Call.recvmsg
    split
    · exact Or.inr ⟨.read .eagain none, Sender.step_read.mpr ⟨reads, rfl⟩, (List.append_nil _).symm⟩
    · rename_i m rest queued
      exact Or.inr ⟨.read (.message m.cmsgs) none, Sender.step_read.mpr ⟨reads, rfl⟩, List.map_append⟩
  | fail =>
    obtain ⟨reads, rfl⟩ := Call.step_fail.mp taken
    exact Or.inr ⟨.read .failure none, Sender.step_read.mpr ⟨reads, rfl⟩, (List.append_nil _).symm⟩

theorem sender_of_run {ok : Call → CallLabel → Prop} {ms : List CallLabel} (run : Run (Call.step e) ok c ms d) :
    ∃ ls, Run (Sender.step e) Any c.sender ls d.sender ∧
      d.reads.map Looped.cmsgs = c.reads.map Looped.cmsgs ++ ls.filterMap SenderLabel.message := by
  induction ms generalizing c with
  | nil =>
    obtain rfl : c = d := run
    exact ⟨[], rfl, (List.append_nil _).symm⟩
  | cons m ms ih =>
    obtain ⟨-, u, taken, rest⟩ := run
    obtain ⟨ls, tail, read⟩ := ih rest
    rcases sender_of_step taken with ⟨sender, reads⟩ | ⟨l, moved, reads⟩
    · rw [sender] at tail
      rw [reads] at read
      exact ⟨ls, tail, read⟩
    · refine ⟨l :: ls, ⟨trivial, u.sender, moved, tail⟩, ?_⟩
      rw [read, reads, List.append_assoc, List.filterMap_cons]
      cases l.message <;> rfl

end Mdelay
