import Mdelay.Proofs.Attribution

/-!
# Error-queue reads that fail

Only the first of the four reads of an iteration stops the program when it fails. After a failure of
the second, the follow-up carries what the read before left; after one of the last two, the next
iteration reads a message too many.
-/

namespace Mdelay
open ByteOrder Transition

variable {r : Role} {e : Endian} {x y : Call} {l : CallLabel}

/-- The field of a follow-up that holds the NIC time of its event. -/
def Role.stamp : Role → Header → BitVec 64
  | .master => Header.t2
  | .slave => Header.t4

/-- Every follow-up carries the NIC time of its own event, and none was sent after a failed read. -/
structure Call.Right (r : Role) (x : Call) : Prop where
  own : ∀ i d, x.sent[2 * i + 1]? = some d →
    ∃ ev, x.sent[2 * i]? = some ev ∧ r.stamp (decode .big d.bytes) = ev.nic.nanos
  stops : ∀ f ∈ x.failures, ∀ i, f ≤ 2 * i + 1 → x.sent[2 * i + 1]? = none

/-- A read may fail when it is the first of its iteration, or one of the last two of the last. -/
def Call.Tolerated (x : Call) : CallLabel → Prop
  | .fail => x.sender.pc = .kernelRead ∨
      (x.sender.pc = .drainKernel ∨ x.sender.pc = .drainNic) ∧ x.sender.i + 1 = x.sender.n.toNat
  | _ => True

instance (x : Call) : (l : CallLabel) → Decidable (x.Tolerated l)
  | .fail => inferInstanceAs (Decidable (_ ∨ (_ ∨ _) ∧ _))
  | .event .. | .followUp .. | .loopback | .poll => .isTrue trivial

/-! ### Failures that do no harm -/

theorem readErrq_failure_last {w : Sender} (pc : w.pc = .drainNic) : w.readErrq .failure = w.advance := by
  simp only [Sender.readErrq, pc, ErrqRead.msg]
  rw [← pc]

theorem steady_fail (steady : x.Steady r e) (tolerated : x.Tolerated .fail) (taken : x.step e .fail = some y) :
    y.Steady r e := by
  have later := extends_step taken
  obtain ⟨kind, done, late, stands⟩ := steady
  obtain ⟨-, rfl⟩ := Call.step_fail.mp taken
  have some : x.failures ++ [x.sent.length] ≠ [] := by simp
  refine ⟨(Prod.mk.inj (Prod.mk.inj later.args).2).1.trans kind, fun j begun => iteration_of_extends later (done j begun),
    fun f member => ?_, ?_⟩
  · rcases List.mem_append.mp member with earlier | now
    · exact late f earlier
    · exact (List.mem_singleton.mp now).ge
  · unfold Call.Stands at stands
    rcases tolerated with pc | ⟨pc | pc, last⟩
    · have exits : x.sender.readErrq .failure = { x.sender with pc := .exited } := by
        simp only [Sender.readErrq, pc]
      rw [exits]
      exact some
    · have goesOn : x.sender.readErrq .failure = { x.sender with pc := .drainNic } := by
        simp only [Sender.readErrq, pc, ErrqRead.msg]
      rw [pc] at stands
      rw [goesOn]
      exact ⟨stands.2.1, Or.inr ⟨some, last⟩⟩
    · rw [pc] at stands
      obtain ⟨⟨inside, sent, clocks⟩, -⟩ := stands
      exact stands_of_advance (readErrq_failure_last pc) inside sent clocks (Or.inr ⟨some, last⟩)

theorem steady_tolerated (steady : x.Steady r e) (tolerated : x.Tolerated l) (taken : x.step e l = some y) :
    y.Steady r e := by
  cases l with
  | fail => exact steady_fail steady tolerated taken
  | event | followUp | loopback | poll => exact steady_step steady (by trivial) taken

theorem right_of_steady (steady : x.Steady r e) : x.Right r := by
  constructor
  · intro i d found
    have begun := (List.getElem?_eq_some_iff.mp found).1
    obtain ⟨tv, ev, d', ⟨-, event, -⟩, -, found', bytes⟩ := steady.done i begun
    obtain rfl : d' = d := Option.some.inj (found'.symm.trans found)
    refine ⟨ev, event, ?_⟩
    rw [bytes, decode_message]
    cases r <;> rfl
  · intro f member i after
    have late := steady.late f member
    exact List.getElem?_eq_none (by omega)

/-! ### Failures that do -/

/-- How many datagrams a call has sent, whatever was read. -/
def Sender.Paced (x : Sender) (sent : Nat) : Prop :=
  match x.pc with
  | .loopHead => x.i < x.n.toNat ∧ sent = 2 * x.i
  | .kernelRead | .nicRead | .followUp => x.i < x.n.toNat ∧ sent = 2 * x.i + 1
  | .drainKernel | .drainNic => x.i < x.n.toNat ∧ sent = 2 * x.i + 2
  | .returned => sent = 2 * x.n.toNat
  | .exited | .faulted => True

theorem paced_advance {w : Sender} {sent : Nat} (inside : w.i < w.n.toNat) (both : sent = 2 * w.i + 2) :
    w.advance.Paced sent := by
  rcases advance_cases w with ⟨head, more⟩ | ⟨done, last⟩
  · rw [Sender.Paced, head]
    exact ⟨more, both⟩
  · rw [Sender.Paced, done]
    change sent = 2 * w.n.toNat
    omega

theorem paced_readErrq {w : Sender} {sent : Nat} (paced : w.Paced sent) (got : ErrqRead) :
    (w.readErrq got).Paced sent := by
  unfold Sender.readErrq
  split
  · exact paced
  · trivial
  · rename_i pc
    rw [Sender.Paced, pc] at paced
    dsimp only
    split
    · exact paced
    · trivial
  · rename_i pc
    rw [Sender.Paced, pc] at paced
    dsimp only
    split
    · exact paced
    · trivial
  · rename_i pc
    rw [Sender.Paced, pc] at paced
    exact paced
  · rename_i pc
    rw [Sender.Paced, pc] at paced
    exact paced_advance paced.1 paced.2
  · exact paced

theorem paced_step (kind : x.sender.pkttype = r.pkttype) (paced : x.sender.Paced x.sent.length)
    (taken : x.step e l = some y) : y.sender.Paced y.sent.length := by
  cases l with
  | event tv sw nic =>
    obtain ⟨head, rfl⟩ := Call.step_event.mp taken
    rw [Sender.Paced, head] at paced
    rw [sendEvent_message e tv kind]
    refine ⟨paced.1, ?_⟩
    simp [Call.sendto, paced.2]
  | followUp sw nic =>
    obtain ⟨ready, rfl⟩ := Call.step_followUp.mp taken
    rw [Sender.Paced, ready] at paced
    obtain ⟨inside, sent⟩ := paced
    have out : ∃ bytes w, x.sender.sendFollowUp e = (w, some bytes) ∧ w.pc = .drainKernel ∧ w.i = x.sender.i ∧
        w.n = x.sender.n := by
      unfold Sender.sendFollowUp
      rw [kind]
      cases r <;> exact ⟨_, _, rfl, rfl, rfl, rfl⟩
    obtain ⟨bytes, w, out, pc, i, n⟩ := out
    rw [out]
    change w.Paced (x.sent ++ [_]).length
    rw [Sender.Paced, pc, i, n, List.length_append, sent]
    exact ⟨inside, rfl⟩
  | loopback =>
    obtain ⟨m, rest, -, rfl⟩ := Call.step_loopback.mp taken
    exact paced
  | poll =>
    obtain ⟨-, rfl⟩ := Call.step_poll.mp taken
    unfold Call.recvmsg
    split <;> exact paced_readErrq paced _
  | fail =>
    obtain ⟨-, rfl⟩ := Call.step_fail.mp taken
    exact paced_readErrq paced _

theorem paced_run {ls : List CallLabel} (kind : x.sender.pkttype = r.pkttype)
    (paced : x.sender.Paced x.sent.length) (run : Run (Call.step e) Any x ls y) :
    y.sender.pkttype = r.pkttype ∧ y.sender.Paced y.sent.length := by
  refine run_invariant (I := fun y => y.sender.pkttype = r.pkttype ∧ y.sender.Paced y.sent.length) ?_ ⟨kind, paced⟩ run
  rintro u l v ⟨kind, paced⟩ - taken
  have same : v.sender.pkttype = u.sender.pkttype := congrArg (fun args => args.2.1) (extends_step taken).args
  exact ⟨same.trans kind, paced_step kind paced taken⟩

theorem failures_of_extends {ls : List CallLabel} (run : Run (Call.step e) Any x ls y) : x.failures <+: y.failures :=
  run_invariant (I := fun y => x.failures <+: y.failures)
    (fun _ _ _ before _ taken => before.trans (extends_step taken).failures) List.prefix_rfl run

/-- A read that fails where no follow-up is to be sent any more, or before the NIC time is read. -/
theorem tolerated_of_last (paced : x.sender.Paced x.sent.length) (reads : x.sender.pc.reads = true)
    (last : ∀ i, x.sent.length ≤ 2 * i + 1 → x.sender.n.toNat ≤ i) : x.Tolerated .fail := by
  rw [Sender.Paced] at paced
  cases pc : x.sender.pc with
  | kernelRead => exact Or.inl pc
  | nicRead =>
    rw [pc] at paced
    have done := last x.sender.i paced.2.le
    omega
  | drainKernel =>
    rw [pc] at paced
    obtain ⟨inside, sent⟩ := paced
    have done := last (x.sender.i + 1) (by omega)
    exact Or.inr ⟨Or.inl pc, by omega⟩
  | drainNic =>
    rw [pc] at paced
    obtain ⟨inside, sent⟩ := paced
    have done := last (x.sender.i + 1) (by omega)
    exact Or.inr ⟨Or.inr pc, by omega⟩
  | loopHead | followUp | returned | exited | faulted =>
    rw [pc] at reads
    cases reads

/-- After a failure that is not tolerated a follow-up has still to be sent. -/
theorem tolerated_of_right {ls : List CallLabel} (kind : x.sender.pkttype = r.pkttype)
    (paced : x.sender.Paced x.sent.length) (run : Run (Call.step e) Any x ls y) (returned : y.sender.pc = .returned)
    (right : y.Right r) : Run (Call.step e) Call.Tolerated x ls y := by
  induction ls generalizing x with
  | nil => exact run
  | cons l ls ih =>
    have whole := paced_run kind paced run
    obtain ⟨-, u, taken, rest⟩ := run
    have same : u.sender.args = x.sender.args := (extends_step taken).args
    refine ⟨?_, u, taken, ih ((congrArg (fun args => args.2.1) same).trans kind) (paced_step kind paced taken) rest⟩
    cases l with
    | event | followUp | loopback | poll => trivial
    | fail =>
      have sent : y.sent.length = 2 * x.sender.n.toNat := by
        have count : y.sender.n = x.sender.n :=
          congrArg (fun args => args.2.2.2.1) ((args_of_run rest).trans same)
        rw [← count]
        have paced := whole.2
        rw [Sender.Paced, returned] at paced
        exact paced
      obtain ⟨reads, rfl⟩ := Call.step_fail.mp taken
      refine tolerated_of_last paced reads fun i after => ?_
      have failed : x.sent.length ∈ y.failures :=
        (failures_of_extends rest).subset (List.mem_append_right _ (List.mem_singleton_self _))
      have none := List.getElem?_eq_none_iff.mp (right.stops _ failed i after)
      omega

theorem paced_start (dsa : SockaddrIn) (pkttype : PktType) (pktsize : Nat) (n : Int) (seq : BitVec 32) :
    (sendUdpPacketsTimestamp dsa pkttype pktsize n seq).Paced 0 := by
  rcases start_cases dsa pkttype pktsize n seq with ⟨head, some⟩ | ⟨done, none⟩
  · rw [Sender.Paced, head]
    exact ⟨some, rfl⟩
  · rw [Sender.Paced, done]
    change 0 = 2 * n.toNat
    rw [none]

/-! ### Every run -/

/-- As long as only tolerated reads fail, what was sent is right; a call that has returned has sent what
is right only if no other read failed. -/
theorem failed_reads_iff (r : Role) (e : Endian) (dsa : SockaddrIn) (pktsize : Nat) (n : Int) (seq : BitVec 32)
    (ls : List CallLabel)
    (run : Run (Call.step e) Any (Call.start (sendUdpPacketsTimestamp dsa r.pkttype pktsize n seq)) ls x) :
    let start := Call.start (sendUdpPacketsTimestamp dsa r.pkttype pktsize n seq)
    (Run (Call.step e) Call.Tolerated start ls x → x.Right r) ∧
      (x.sender.pc = .returned → (x.Right r ↔ Run (Call.step e) Call.Tolerated start ls x)) := by
  intro start
  have enough (tolerated : Run (Call.step e) Call.Tolerated start ls x) : x.Right r :=
    right_of_steady (run_invariant (fun _ _ _ steady tolerated taken => steady_tolerated steady tolerated taken)
      (steady_start r e dsa pktsize n seq) tolerated)
  exact ⟨enough, fun returned =>
    ⟨tolerated_of_right (x := start) rfl (paced_start dsa r.pkttype pktsize n seq) run returned, enough⟩⟩

def failedNicRead : List CallLabel :=
  [.event ⟨7, 0⟩ ⟨0, 3⟩ ⟨0, 5⟩, .loopback, .loopback, .poll, .fail, .followUp ⟨0, 8⟩ ⟨0, 9⟩]

/-- The read of the NIC timestamp fails, and the follow-up carries 0 for an event sent at 5: entry 2 of
the software timestamp message that the read before left in the control buffer. -/
theorem failed_nic_read :
    let start := Call.start (sendUdpPacketsTimestamp ⟨0x0200007f, 2⟩ .delayReq payloadSize 1 0)
    ∃ x, Run (Call.step .little) Any start failedNicRead x ∧
      x.sent.map (fun d => ((decode .big d.bytes).t2, d.nic)) = [(0, ⟨0, 5⟩), (0, ⟨0, 9⟩)] ∧ ¬ x.Right .master := by
  intro start
  obtain ⟨x, run, sent⟩ := run_of_exec (Call.step .little) Any start failedNicRead
    (fun x => x.sent.map fun d => ((decode .big d.bytes).t2, d.nic)) [(0, ⟨0, 5⟩), (0, ⟨0, 9⟩)] (by decide +kernel)
  refine ⟨x, run, sent, fun right => ?_⟩
  have two := congrArg List.length sent
  rw [List.length_map] at two
  obtain ⟨ev, d, split⟩ : ∃ ev d, x.sent = [ev, d] := List.length_eq_two.mp two
  obtain ⟨ev', found, stamp⟩ := right.own 0 d (by rw [split]; rfl)
  rw [split] at found sent
  obtain rfl := Option.some.inj found
  simp only [List.map_cons, List.map_nil, List.cons.injEq, Prod.mk.injEq] at sent
  obtain ⟨⟨-, five⟩, ⟨zero, -⟩, -⟩ := sent
  change (decode .big d.bytes).t2 = _ at stamp
  rw [zero, five] at stamp
  exact absurd stamp (by decide)

/-- The first of the last two reads of a call for one measurement fails. -/
def failedLastRead : List CallLabel :=
  lateLoopbacks ++ [.loopback, .fail, .poll]

theorem failed_reads_last : ∃ x,
    Run (Call.step .little) Any (Call.start (sendUdpPacketsTimestamp ⟨0x0200007f, 2⟩ .delayReq payloadSize 1 0))
      failedLastRead x ∧ x.Right .master := by
  obtain ⟨x, run, -⟩ := run_of_exec (Call.step .little) Call.Tolerated
    (Call.start (sendUdpPacketsTimestamp ⟨0x0200007f, 2⟩ .delayReq payloadSize 1 0)) failedLastRead
    (fun x => x.sender.pc) .returned (by decide +kernel)
  have any := run_mono (fun _ _ _ => trivial) run
  exact ⟨x, any, (failed_reads_iff .master .little _ _ _ _ _ any).1 run⟩

end Mdelay
