import Mdelay.Proofs.FailedReads
import Mdelay.Proofs.LoopExit

/-!
# A slave's calls on one error queue

The messages of a socket are numbered: the kernel loops back two for every datagram, the second with the time
of its NIC. A read that fails leaves its message to the next one, also across the end of a call, and nothing
ever catches up.
-/

namespace Mdelay
open ByteOrder Transition

variable {e : Endian} {x y : Call} {l : CallLabel}

/-- Entry 2 of message `m` of the socket. -/
def Call.stamp (x : Call) (m : Nat) : BitVec 64 :=
  if m % 2 = 0 then 0 else ((x.sent[m / 2]?).map fun d => d.nic.nanos).getD 0

/-- How many reads had failed when follow-up `j` was sent. -/
def Call.lost (x : Call) (j : Nat) : Nat := x.failures.countP fun f => f ≤ 2 * j + 1

def Call.Carries (x : Call) (m : Nat) (cmsgs : List Cmsghdr) : Prop :=
  ∃ a b t, cmsgs = txControl [a, b, t] ∧ t.nanos = x.stamp m

/-! ### The messages of a socket -/

structure Call.Numbered (x : Call) : Prop where
  count : (x.reads ++ x.unread).length = 2 * x.sent.length
  carries : ∀ m l, (x.reads ++ x.unread)[m]? = some l → x.Carries m l.cmsgs

theorem stamp_kernel (x : Call) (i : Nat) : x.stamp (2 * i) = 0 := if_pos (Nat.mul_mod_right 2 i)

theorem stamp_nic {i : Nat} {ev : Sent} (event : x.sent[i]? = some ev) : x.stamp (2 * i + 1) = ev.nic.nanos := by
  have odd : (2 * i + 1) % 2 ≠ 0 := by omega
  have half : (2 * i + 1) / 2 = i := by omega
  rw [Call.stamp, if_neg odd, half, event]
  rfl

theorem stamp_later (sent : x.sent <+: y.sent) {m : Nat} (old : m < 2 * x.sent.length) : y.stamp m = x.stamp m := by
  have inside : m / 2 < x.sent.length := by omega
  have found : x.sent[m / 2]? = some x.sent[m / 2] := List.getElem?_eq_getElem inside
  rw [Call.stamp, Call.stamp, found, getElem?_of_initial sent found]

theorem carries_later (sent : x.sent <+: y.sent) {m : Nat} {cmsgs : List Cmsghdr} (old : m < 2 * x.sent.length)
    (carries : x.Carries m cmsgs) : y.Carries m cmsgs := by
  obtain ⟨a, b, t, same, nanos⟩ := carries
  exact ⟨a, b, t, same, nanos.trans (stamp_later sent old).symm⟩

theorem numbered_sendto (numbered : x.Numbered) (sw nic : Timespec) (out : Sender × Option (List Byte)) :
    (x.sendto sw nic out).Numbered := by
  obtain ⟨count, carries⟩ := numbered
  obtain ⟨sender, bytes⟩ := out
  cases bytes with
  | none => exact ⟨count, carries⟩
  | some bytes =>
    let z := x.sendto sw nic (sender, some bytes)
    have all : z.reads ++ z.unread =
        (x.reads ++ x.unread) ++ [⟨x.sent.length, kernelControl sw⟩, ⟨x.sent.length, nicControl nic⟩] := by
      simp [z, Call.unread, Call.sendto]
    have new : z.sent[x.sent.length]? = some ⟨sender.dsa, bytes, nic⟩ := List.getElem?_concat_length
    have sent : x.sent <+: z.sent := List.prefix_append _ _
    constructor
    · show (z.reads ++ z.unread).length = 2 * (x.sent ++ [_]).length
      rw [all, List.length_append, count, List.length_append]
      rfl
    · intro m l found
      change (z.reads ++ z.unread)[m]? = some l at found
      rw [all] at found
      by_cases old : m < 2 * x.sent.length
      · rw [List.getElem?_append_left (by omega)] at found
        exact carries_later sent old (carries m l found)
      · rw [List.getElem?_append_right (by omega), count] at found
        obtain first | second : m - 2 * x.sent.length = 0 ∨ m - 2 * x.sent.length = 1 := by
          have inside := (List.getElem?_eq_some_iff.mp found).1
          simp only [List.length_cons, List.length_nil] at inside
          omega
        · obtain rfl : m = 2 * x.sent.length := by omega
          rw [first] at found
          obtain rfl := Option.some.inj found
          exact ⟨sw, ⟨0, 0⟩, ⟨0, 0⟩, rfl, (stamp_kernel z _).symm⟩
        · obtain rfl : m = 2 * x.sent.length + 1 := by omega
          rw [second] at found
          obtain rfl := Option.some.inj found
          exact ⟨⟨0, 0⟩, ⟨0, 0⟩, nic, rfl, (stamp_nic new).symm⟩

/-- Reading and looping back move messages, and leave them in their order. -/
theorem numbered_of_moved (numbered : x.Numbered) (sent : y.sent = x.sent)
    (moved : y.reads ++ y.unread = x.reads ++ x.unread) : y.Numbered := by
  obtain ⟨count, carries⟩ := numbered
  constructor
  · rw [moved, sent]
    exact count
  · intro m l found
    rw [moved] at found
    exact carries_later (sent.symm ▸ List.prefix_rfl) (count ▸ (List.getElem?_eq_some_iff.mp found).1) (carries m l found)

theorem numbered_step (numbered : x.Numbered) (taken : x.step e l = some y) : y.Numbered := by
  cases l with
  | event tv sw nic =>
    obtain ⟨-, rfl⟩ := Call.step_event.mp taken
    obtain ⟨count, carries⟩ := numbered_sendto numbered sw nic (x.sender.sendEvent e tv)
    exact ⟨count, carries⟩
  | followUp sw nic =>
    obtain ⟨-, rfl⟩ := Call.step_followUp.mp taken
    exact numbered_sendto numbered sw nic _
  | loopback =>
    obtain ⟨m, rest, pending, rfl⟩ := Call.step_loopback.mp taken
    exact numbered_of_moved numbered rfl (by simp [Call.unread, pending])
  | poll =>
    obtain ⟨-, rfl⟩ := Call.step_poll.mp taken
    unfold Call.recvmsg
    split
    · exact numbered_of_moved numbered rfl rfl
    · rename_i m rest queued
      exact numbered_of_moved numbered rfl (by simp [Call.unread, queued])
  | fail =>
    obtain ⟨-, rfl⟩ := Call.step_fail.mp taken
    exact numbered_of_moved numbered rfl rfl

theorem numbered_start (w : Sender) : (Call.start w).Numbered := ⟨rfl, fun m l found => by cases found⟩

/-! ### Where a reply stands -/

/-- The call is at its only iteration, `read` messages into the four that it reads. -/
def Call.Within (x : Call) (j sent read : Nat) : Prop :=
  x.sender.i = 0 ∧ x.sender.n = 1 ∧ txControllen ≤ x.sender.msg.msgControllen ∧ x.sent.length = 2 * j + sent ∧
    x.reads.length + x.failures.length = 4 * j + read

def Call.Holds (e : Endian) (x : Call) : Prop :=
  ∃ tv : Timeval, x.sender.mdelayhdr = (Role.slave.eventHeader x.sender.currentSeq tv.nanos).toNetwork e 0

section Answers

variable {measureNumber : BitVec 32} {var : Int} {ls : List Slave.AnswerLabel} {a b : Slave.Answering e measureNumber}

end Answers

/-! ### Every run -/

end Mdelay
