import Mdelay.Model.Call
import Mdelay.Library.Transition
import Mdelay.Proofs.Calls

/-!
# Whose time a follow-up carries

The four loops of an iteration read as many messages as the kernel loops back for its two datagrams,
so the second message an iteration reads is the NIC timestamp of its own event.
-/

namespace Mdelay
open ByteOrder Transition

variable {r : Role} {e : Endian} {x y : Call} {l : CallLabel}

/-! ### What no step changes -/

/-- The arguments of a call. -/
def Sender.args (x : Sender) : SockaddrIn × PktType × Nat × Int × BitVec 32 := (x.dsa, x.pkttype, x.pktsize, x.n, x.seq)

theorem readErrq_args (got : ErrqRead) (x : Sender) : (x.readErrq got).args = x.args := by
  unfold Sender.readErrq
  split
  · rfl
  · rfl
  · dsimp only
    split <;> rfl
  · dsimp only
    split <;> rfl
  · rfl
  · rfl
  · rfl

theorem sendEvent_args (e : Endian) (tv : Timeval) (x : Sender) : (x.sendEvent e tv).1.args = x.args := by
  unfold Sender.sendEvent
  dsimp only
  split <;> rfl

theorem sendFollowUp_args (e : Endian) (x : Sender) : (x.sendFollowUp e).1.args = x.args := by
  unfold Sender.sendFollowUp
  dsimp only
  split <;> rfl

/-- Later in the same call. -/
structure Call.Extends (x y : Call) : Prop where
  args : y.sender.args = x.sender.args
  clocks : x.clocks <+: y.clocks
  sent : x.sent <+: y.sent
  reads : x.reads <+: y.reads
  failures : x.failures <+: y.failures

theorem extends_sendto (x : Call) (sw nic : Timespec) {out : Sender × Option (List Byte)}
    (args : out.1.args = x.sender.args) : x.Extends (x.sendto sw nic out) := by
  obtain ⟨sender, bytes⟩ := out
  cases bytes with
  | none => exact ⟨args, List.prefix_rfl, List.prefix_rfl, List.prefix_rfl, List.prefix_rfl⟩
  | some bytes => exact ⟨args, List.prefix_rfl, List.prefix_append _ _, List.prefix_rfl, List.prefix_rfl⟩

theorem extends_recvmsg (x : Call) : x.Extends x.recvmsg := by
  unfold Call.recvmsg
  split
  · exact ⟨readErrq_args _ _, List.prefix_rfl, List.prefix_rfl, List.prefix_rfl, List.prefix_rfl⟩
  · exact ⟨readErrq_args _ _, List.prefix_rfl, List.prefix_rfl, List.prefix_append _ _, List.prefix_rfl⟩

theorem extends_step (taken : x.step e l = some y) : x.Extends y := by
  cases l with
  | event tv sw nic =>
    obtain ⟨-, rfl⟩ := Call.step_event.mp taken
    obtain ⟨args, clocks, sent, reads, failures⟩ := extends_sendto x sw nic (sendEvent_args e tv x.sender)
    exact ⟨args, List.prefix_append _ _, sent, reads, failures⟩
  | followUp sw nic =>
    obtain ⟨-, rfl⟩ := Call.step_followUp.mp taken
    exact extends_sendto x sw nic (sendFollowUp_args e x.sender)
  | loopback =>
    obtain ⟨m, rest, -, rfl⟩ := Call.step_loopback.mp taken
    exact ⟨rfl, List.prefix_rfl, List.prefix_rfl, List.prefix_rfl, List.prefix_rfl⟩
  | poll =>
    obtain ⟨-, rfl⟩ := Call.step_poll.mp taken
    exact extends_recvmsg x
  | fail =>
    obtain ⟨-, rfl⟩ := Call.step_fail.mp taken
    exact ⟨readErrq_args _ _, List.prefix_rfl, List.prefix_rfl, List.prefix_rfl, List.prefix_append _ _⟩

theorem getElem?_of_initial {α : Type} {xs ys : List α} (before : xs <+: ys) {j : Nat} {a : α}
    (found : xs[j]? = some a) : ys[j]? = some a := by
  obtain ⟨inside, rfl⟩ := List.getElem?_eq_some_iff.mp found
  exact List.prefix_iff_getElem?.mp before j inside

/-! ### The packets of one iteration -/

/-- The event of iteration `j` was sent as `ev`, with the reading `tv` of gettimeofday. -/
def Call.Event (r : Role) (x : Call) (j : Nat) (tv : Timeval) (ev : Sent) : Prop :=
  x.clocks[j]? = some tv ∧ x.sent[2 * j]? = some ev ∧
    ev.bytes = (r.eventHeader (x.sender.seq + BitVec.ofNat 32 j) tv.nanos).message x.sender.pktsize r.eventFill

/-- The second message iteration `j` read was the NIC timestamp of its event, and its follow-up
carries that time. -/
def Call.Iteration (r : Role) (x : Call) (j : Nat) : Prop :=
  ∃ tv ev d, x.Event r j tv ev ∧ x.reads[4 * j + 1]? = some ⟨2 * j, nicControl ev.nic⟩ ∧
    x.sent[2 * j + 1]? = some d ∧
    d.bytes = (r.followUpHeader (x.sender.seq + BitVec.ofNat 32 j) tv.nanos ev.nic.nanos).message x.sender.pktsize
      r.followUpFill

theorem event_of_extends (later : x.Extends y) {j : Nat} {tv : Timeval} {ev : Sent} (event : x.Event r j tv ev) :
    y.Event r j tv ev := by
  obtain ⟨-, -, size, -, seq⟩ : _ ∧ _ ∧ _ ∧ _ ∧ _ := by simpa only [Sender.args, Prod.mk.injEq] using later.args
  obtain ⟨clock, sent, bytes⟩ := event
  rw [← seq, ← size] at bytes
  exact ⟨getElem?_of_initial later.clocks clock, getElem?_of_initial later.sent sent, bytes⟩

theorem iteration_of_extends (later : x.Extends y) {j : Nat} (iteration : x.Iteration r j) : y.Iteration r j := by
  obtain ⟨-, -, size, -, seq⟩ : _ ∧ _ ∧ _ ∧ _ ∧ _ := by simpa only [Sender.args, Prod.mk.injEq] using later.args
  obtain ⟨tv, ev, d, event, read, sent, bytes⟩ := iteration
  rw [← seq, ← size] at bytes
  exact ⟨tv, ev, d, event_of_extends later event, getElem?_of_initial later.reads read,
    getElem?_of_initial later.sent sent, bytes⟩

/-! ### Where a call stands -/

def Call.unread (x : Call) : List Looped := x.queued ++ x.pending

/-- The event of the present iteration is out and its follow-up is not; `count` messages of the
iteration have been read. -/
def Call.Awaits (r : Role) (e : Endian) (x : Call) (count : Nat) (ev : Sent) : Prop :=
  x.sender.i < x.sender.n.toNat ∧ x.sent.length = 2 * x.sender.i + 1 ∧ x.clocks.length = x.sender.i + 1 ∧
    x.reads.length = 4 * x.sender.i + count ∧ txControllen ≤ x.sender.msg.msgControllen ∧ ∃ tv,
      x.Event r x.sender.i tv ev ∧ x.sender.mdelayhdr = (r.eventHeader x.sender.currentSeq tv.nanos).toNetwork e 0

/-- Both packets of the present iteration are out. -/
def Call.Drains (x : Call) : Prop :=
  x.sender.i < x.sender.n.toNat ∧ x.sent.length = 2 * x.sender.i + 2 ∧ x.clocks.length = x.sender.i + 1

def Call.Stands (r : Role) (e : Endian) (x : Call) : Prop :=
  match x.sender.pc with
  | .loopHead => x.failures = [] ∧ x.unread = [] ∧ x.sender.i < x.sender.n.toNat ∧
      x.sent.length = 2 * x.sender.i ∧ x.clocks.length = x.sender.i ∧ x.reads.length = 4 * x.sender.i ∧
      txControllen ≤ x.sender.msg.msgControllen
  | .kernelRead => x.failures = [] ∧ ∃ ev sw, x.Awaits r e 0 ev ∧
      x.unread = [⟨2 * x.sender.i, kernelControl sw⟩, ⟨2 * x.sender.i, nicControl ev.nic⟩]
  | .nicRead => x.failures = [] ∧ ∃ ev, x.Awaits r e 1 ev ∧ x.unread = [⟨2 * x.sender.i, nicControl ev.nic⟩]
  | .followUp => x.failures = [] ∧ ∃ ev, x.Awaits r e 2 ev ∧ x.unread = [] ∧
      x.reads[4 * x.sender.i + 1]? = some ⟨2 * x.sender.i, nicControl ev.nic⟩ ∧ x.sender.ts2 = ev.nic
  | .drainKernel => x.failures = [] ∧ x.Drains ∧ x.reads.length = 4 * x.sender.i + 2 ∧
      txControllen ≤ x.sender.msg.msgControllen ∧ ∃ ts ts',
        x.unread = [⟨2 * x.sender.i + 1, txControl ts⟩, ⟨2 * x.sender.i + 1, txControl ts'⟩]
  | .drainNic => x.Drains ∧
      (x.failures = [] ∧ x.reads.length = 4 * x.sender.i + 3 ∧ txControllen ≤ x.sender.msg.msgControllen ∧
          (∃ ts, x.unread = [⟨2 * x.sender.i + 1, txControl ts⟩]) ∨
        x.failures ≠ [] ∧ x.sender.i + 1 = x.sender.n.toNat)
  | .returned => x.sent.length = 2 * x.sender.n.toNat ∧ (x.failures = [] → x.unread = [])
  | .exited => x.failures ≠ []
  | .faulted => False

structure Call.Steady (r : Role) (e : Endian) (x : Call) : Prop where
  kind : x.sender.pkttype = r.pkttype
  done : ∀ j, 2 * j + 1 < x.sent.length → x.Iteration r j
  late : ∀ f ∈ x.failures, x.sent.length ≤ f
  stands : x.Stands r e

theorem steady_start (r : Role) (e : Endian) (dsa : SockaddrIn) (pktsize : Nat) (n : Int) (seq : BitVec 32) :
    (Call.start (sendUdpPacketsTimestamp dsa r.pkttype pktsize n seq)).Steady r e := by
  refine ⟨rfl, fun j sent => absurd sent (Nat.not_lt_zero _), fun f member => (by cases member), ?_⟩
  unfold Call.Stands Call.start
  rcases start_cases dsa r.pkttype pktsize n seq with ⟨head, some⟩ | ⟨done, none⟩
  · rw [head]
    exact ⟨rfl, rfl, some, rfl, rfl, rfl, (by decide : txControllen ≤ 1024)⟩
  · rw [done]
    refine ⟨?_, fun _ => rfl⟩
    change 0 = 2 * n.toNat
    rw [none]

/-! ### The steps -/

theorem steady_event (steady : x.Steady r e) {tv : Timeval} {sw nic : Timespec}
    (taken : x.step e (.event tv sw nic) = some y) : y.Steady r e := by
  obtain ⟨kind, done, late, stands⟩ := steady
  have later := extends_step taken
  obtain ⟨head, rfl⟩ := Call.step_event.mp taken
  rw [Call.Stands, head] at stands
  obtain ⟨none, empty, inside, sent, clocks, reads, room⟩ := stands
  have out := sendEvent_message e tv kind
  rw [out] at later ⊢
  refine ⟨kind, fun j begun => iteration_of_extends later (done j ?_), ?_, none, ?_⟩
  · simp only [Call.sendto, List.length_append, List.length_singleton] at begun
    omega
  · rw [Call.sendto, none]
    exact fun f member => by cases member
  · let ev : Sent := ⟨x.sender.dsa,
      (r.eventHeader x.sender.currentSeq tv.nanos).message x.sender.pktsize r.eventFill, nic⟩
    refine ⟨ev, sw, ⟨inside, ?_, ?_, reads, room, tv, ⟨?_, ?_, rfl⟩, rfl⟩, ?_⟩
    · simp [Call.sendto, sent]
    · simp [Call.sendto, clocks]
    · simp [Call.sendto, ← clocks]
    · simp [Call.sendto, ← sent, ev]
    · obtain ⟨queued, pending⟩ := List.append_eq_nil_iff.mp empty
      simp [Call.unread, Call.sendto, queued, pending, sent, ev]

theorem steady_followUp (steady : x.Steady r e) {sw nic : Timespec}
    (taken : x.step e (.followUp sw nic) = some y) : y.Steady r e := by
  obtain ⟨kind, done, late, stands⟩ := steady
  have later := extends_step taken
  obtain ⟨ready, rfl⟩ := Call.step_followUp.mp taken
  rw [Call.Stands, ready] at stands
  obtain ⟨none, ev, ⟨inside, sent, clocks, reads, room, tv, event, held⟩, empty, read, stamp⟩ := stands
  have out := sendFollowUp_message e kind held
  rw [out] at later ⊢
  refine ⟨kind, fun j begun => ?_, ?_, none, ⟨inside, ?_, clocks⟩, reads, room,
    [sw, ⟨0, 0⟩, ⟨0, 0⟩], [⟨0, 0⟩, ⟨0, 0⟩, nic], ?_⟩
  · simp only [Call.sendto, List.length_append, List.length_singleton] at begun
    by_cases earlier : j < x.sender.i
    · exact iteration_of_extends later (done j (by omega))
    · obtain rfl : j = x.sender.i := by omega
      let d : Sent := ⟨x.sender.dsa,
        (r.followUpHeader x.sender.currentSeq tv.nanos x.sender.ts2.nanos).message x.sender.pktsize r.followUpFill, nic⟩
      refine ⟨tv, ev, d, event_of_extends later event, read, ?_, ?_⟩
      · simp [Call.sendto, ← sent, d]
      · rw [← stamp]
        rfl
  · rw [Call.sendto, none]
    exact fun f member => by cases member
  · simp [Call.sendto, sent]
  · obtain ⟨queued, pending⟩ := List.append_eq_nil_iff.mp empty
    simp [Call.unread, Call.sendto, queued, pending, sent, kernelControl, nicControl]

theorem steady_loopback (steady : x.Steady r e) (taken : x.step e .loopback = some y) : y.Steady r e := by
  obtain ⟨kind, done, late, stands⟩ := steady
  obtain ⟨m, rest, pending, rfl⟩ := Call.step_loopback.mp taken
  have unread : (x.queued ++ [m]) ++ rest = x.unread := by
    rw [Call.unread, pending, List.append_assoc, List.singleton_append]
  refine ⟨kind, done, late, ?_⟩
  unfold Call.Stands at stands ⊢
  unfold Call.unread Call.Drains Call.Awaits Call.Event
  dsimp only
  rw [unread]
  exact stands

theorem stands_of_advance {w : Sender} (advanced : y.sender = w.advance) (inside : w.i < w.n.toNat)
    (sent : y.sent.length = 2 * w.i + 2) (clocks : y.clocks.length = w.i + 1)
    (rest : y.failures = [] ∧ y.unread = [] ∧ y.reads.length = 4 * w.i + 4 ∧ txControllen ≤ w.msg.msgControllen ∨
      y.failures ≠ [] ∧ w.i + 1 = w.n.toNat) : y.Stands r e := by
  have fields : w.advance.i = w.i + 1 ∧ w.advance.n = w.n ∧ w.advance.msg = w.msg := ⟨rfl, rfl, rfl⟩
  rcases advance_cases w with ⟨head, more⟩ | ⟨done, last⟩
  · rcases rest with ⟨none, empty, reads, room⟩ | ⟨-, last⟩
    · rw [Call.Stands, advanced, head]
      exact ⟨none, empty, more, by rw [fields.1]; omega, clocks, by rw [fields.1]; omega, room⟩
    · omega
  · rw [Call.Stands, advanced, done]
    refine ⟨by rw [fields.2.1]; omega, fun none => ?_⟩
    rcases rest with ⟨-, empty, -⟩ | ⟨some, -⟩
    · exact empty
    · exact absurd none some

theorem readErrq_last {w : Sender} (pc : w.pc = .drainNic) (cmsgs : List Cmsghdr) :
    w.readErrq (.message cmsgs) = ({ w with msg := w.msg.recv cmsgs } : Sender).advance := by
  simp only [Sender.readErrq, pc, ErrqRead.msg]

theorem stands_message {m : Looped} {rest : List Looped} (stands : x.Stands r e) (reads : x.sender.pc.reads = true)
    (queued : x.queued = m :: rest) (later : x.Extends x.recvmsg) : x.recvmsg.Stands r e := by
  have after : x.recvmsg =
      { x with sender := x.sender.readErrq (.message m.cmsgs), queued := rest, reads := x.reads ++ [m] } := by
    rw [Call.recvmsg, queued]
  have unread : x.unread = m :: (rest ++ x.pending) := by
    rw [Call.unread, queued, List.cons_append]
  rw [after] at later ⊢
  unfold Call.Stands at stands
  cases pc : x.sender.pc with
  | kernelRead =>
    rw [pc] at stands
    obtain ⟨none, ev, sw, ⟨inside, sent, clocks, count, room, tv, event, held⟩, looped⟩ := stands
    obtain ⟨rfl, left⟩ := List.cons.inj (unread.symm.trans looped)
    have got := readErrq_kernelRead room pc sw
    rw [got] at later ⊢
    refine ⟨none, ev, ⟨inside, sent, clocks, ?_, Nat.le_refl _, tv, event_of_extends later event, held⟩, left⟩
    rw [List.length_append, count]
    rfl
  | nicRead =>
    rw [pc] at stands
    obtain ⟨none, ev, ⟨inside, sent, clocks, count, room, tv, event, held⟩, looped⟩ := stands
    obtain ⟨rfl, left⟩ := List.cons.inj (unread.symm.trans looped)
    have got := readErrq_nicRead room pc ev.nic
    rw [got] at later ⊢
    refine ⟨none, ev, ⟨inside, sent, clocks, ?_, Nat.le_refl _, tv, event_of_extends later event, held⟩, left, ?_, rfl⟩
    · rw [List.length_append, count]
      rfl
    · dsimp only
      rw [← count, List.getElem?_concat_length]
  | drainKernel =>
    rw [pc] at stands
    obtain ⟨none, ⟨inside, sent, clocks⟩, count, room, ts, ts', looped⟩ := stands
    obtain ⟨rfl, left⟩ := List.cons.inj (unread.symm.trans looped)
    have got := readErrq_drainKernel room pc ts
    rw [got]
    refine ⟨⟨inside, sent, clocks⟩, Or.inl ⟨none, ?_, Nat.le_refl _, ts', left⟩⟩
    rw [List.length_append, count]
    rfl
  | drainNic =>
    rw [pc] at stands
    obtain ⟨⟨inside, sent, clocks⟩, stands⟩ := stands
    refine stands_of_advance (readErrq_last pc m.cmsgs) inside sent clocks (stands.imp_left ?_)
    rintro ⟨none, count, room, ts, looped⟩
    obtain ⟨rfl, left⟩ := List.cons.inj (unread.symm.trans looped)
    refine ⟨none, left, ?_, ?_⟩
    · rw [List.length_append, count]
      rfl
    · rw [recv_txControl room]
  | loopHead | followUp | returned | exited | faulted =>
    rw [pc] at reads
    cases reads

theorem recvmsg_empty (queued : x.queued = []) : x.recvmsg = x := by
  unfold Call.recvmsg
  split
  · rfl
  · rename_i some
    rw [queued] at some
    cases some

theorem steady_poll (steady : x.Steady r e) (taken : x.step e .poll = some y) : y.Steady r e := by
  have later := extends_step taken
  obtain ⟨kind, done, late, stands⟩ := steady
  obtain ⟨reads, rfl⟩ := Call.step_poll.mp taken
  cases queued : x.queued with
  | nil =>
    rw [recvmsg_empty queued]
    exact ⟨kind, done, late, stands⟩
  | cons m rest =>
    have kept : x.recvmsg.sent = x.sent ∧ x.recvmsg.failures = x.failures := by
      rw [Call.recvmsg, queued]
      exact ⟨rfl, rfl⟩
    refine ⟨(Prod.mk.inj (Prod.mk.inj later.args).2).1.trans kind, fun j begun => ?_, ?_,
      stands_message stands reads queued later⟩
    · rw [kept.1] at begun
      exact iteration_of_extends later (done j begun)
    · rw [kept.1, kept.2]
      exact late

theorem steady_step (steady : x.Steady r e) (succeeds : x.NoFailure l) (taken : x.step e l = some y) :
    y.Steady r e := by
  cases l with
  | event tv sw nic => exact steady_event steady taken
  | followUp sw nic => exact steady_followUp steady taken
  | loopback => exact steady_loopback steady taken
  | poll => exact steady_poll steady taken
  | fail => exact succeeds.elim

theorem steady_run {dsa : SockaddrIn} {pktsize : Nat} {n : Int} {seq : BitVec 32} {ls : List CallLabel}
    (run : Run (Call.step e) Call.NoFailure (Call.start (sendUdpPacketsTimestamp dsa r.pkttype pktsize n seq)) ls x) :
    x.Steady r e :=
  run_invariant (fun _ _ _ steady succeeds taken => steady_step steady succeeds taken)
    (steady_start r e dsa pktsize n seq) run

theorem args_of_run {ok : Call → CallLabel → Prop} {ls : List CallLabel} (run : Run (Call.step e) ok x ls y) :
    y.sender.args = x.sender.args :=
  run_invariant (I := fun y => y.sender.args = x.sender.args)
    (fun _ _ _ same _ taken => (extends_step taken).args.trans same) rfl run

theorem failures_of_run {ls : List CallLabel} (run : Run (Call.step e) Call.NoFailure x ls y) :
    y.failures = x.failures := by
  refine run_invariant (I := fun y => y.failures = x.failures) ?_ rfl run
  intro u l v same succeeds taken
  refine Eq.trans ?_ same
  cases l with
  | event tv sw nic =>
    obtain ⟨-, rfl⟩ := Call.step_event.mp taken
    cases u.sender.sendEvent e tv with
    | mk sender bytes => cases bytes <;> rfl
  | followUp sw nic =>
    obtain ⟨-, rfl⟩ := Call.step_followUp.mp taken
    cases u.sender.sendFollowUp e with
    | mk sender bytes => cases bytes <;> rfl
  | loopback =>
    obtain ⟨m, rest, -, rfl⟩ := Call.step_loopback.mp taken
    rfl
  | poll =>
    obtain ⟨-, rfl⟩ := Call.step_poll.mp taken
    unfold Call.recvmsg
    split <;> rfl
  | fail => exact succeeds.elim

/-! ### Other packet types -/

/-- A call with a type that is no event exits in its first iteration. -/
def Call.Mute (x : Call) : Prop :=
  (∀ r : Role, x.sender.pkttype ≠ r.pkttype) ∧ x.sent = [] ∧ x.queued = [] ∧ x.pending = [] ∧
    (x.sender.pc = .loopHead ∨ x.sender.pc = .exited ∨ x.sender.pc = .returned)

theorem sendEvent_mute {w : Sender} (other : ∀ r : Role, w.pkttype ≠ r.pkttype) (tv : Timeval) :
    w.sendEvent e tv = ({ w with pc := .exited }, none) := by
  unfold Sender.sendEvent
  dsimp only
  split
  · exact absurd (by assumption) (other .master)
  · exact absurd (by assumption) (other .slave)
  · rfl

theorem mute_step (mute : x.Mute) (taken : x.step e l = some y) : y.Mute := by
  obtain ⟨other, sent, queued, pending, stands⟩ := mute
  have idle : x.sender.pc.reads = false := by rcases stands with pc | pc | pc <;> rw [pc] <;> rfl
  cases l with
  | event tv sw nic =>
    obtain ⟨-, rfl⟩ := Call.step_event.mp taken
    rw [sendEvent_mute other]
    exact ⟨other, sent, queued, pending, Or.inr (Or.inl rfl)⟩
  | followUp sw nic =>
    obtain ⟨ready, -⟩ := Call.step_followUp.mp taken
    rw [ready] at stands
    rcases stands with pc | pc | pc <;> cases pc
  | loopback =>
    obtain ⟨m, rest, some, -⟩ := Call.step_loopback.mp taken
    rw [pending] at some
    cases some
  | poll =>
    obtain ⟨reads, -⟩ := Call.step_poll.mp taken
    rw [idle] at reads
    cases reads
  | fail =>
    obtain ⟨reads, -⟩ := Call.step_fail.mp taken
    rw [idle] at reads
    cases reads

theorem mute_run {dsa : SockaddrIn} {pkttype : PktType} {pktsize : Nat} {n : Int} {seq : BitVec 32}
    {ok : Call → CallLabel → Prop} {ls : List CallLabel} (other : ∀ r : Role, pkttype ≠ r.pkttype)
    (run : Run (Call.step e) ok (Call.start (sendUdpPacketsTimestamp dsa pkttype pktsize n seq)) ls x) : x.Mute := by
  refine run_invariant (fun _ _ _ mute _ taken => mute_step mute taken) ⟨other, rfl, rfl, rfl, ?_⟩ run
  rcases start_cases dsa pkttype pktsize n seq with ⟨head, -⟩ | ⟨done, -⟩
  · exact Or.inl head
  · exact Or.inr (Or.inr done)

/-! ### Every run -/

/-- The time in the follow-up of iteration `i` was read from the NIC timestamp message of the event of
iteration `i`, and no iteration starts, nor does the call return, before all messages of earlier
datagrams are read. -/
theorem follow_up_attribution (e : Endian) (dsa : SockaddrIn) (pkttype : PktType) (pktsize : Nat) (n : Int)
    (seq : BitVec 32) (ls : List CallLabel)
    (run : Run (Call.step e) Call.NoFailure (Call.start (sendUdpPacketsTimestamp dsa pkttype pktsize n seq)) ls x) :
    (∀ i d, x.sent[2 * i + 1]? = some d → ∃ (r : Role) (user : BitVec 64) (ev : Sent) (m : Looped),
      pkttype = r.pkttype ∧ x.sent[2 * i]? = some ev ∧ x.reads[4 * i + 1]? = some m ∧ m.origin = 2 * i ∧
      m.cmsgs = nicControl ev.nic ∧ decode .big ev.bytes = r.eventHeader (seq + BitVec.ofNat 32 i) user ∧
      decode .big d.bytes = r.followUpHeader (seq + BitVec.ofNat 32 i) user ev.nic.nanos) ∧
    (x.sender.pc = .loopHead ∨ x.sender.pc = .returned → x.queued = [] ∧ x.pending = []) := by
  by_cases known : ∃ r : Role, pkttype = r.pkttype
  · obtain ⟨r, rfl⟩ := known
    have steady := steady_run run
    have number : x.sender.seq = seq := congrArg (fun args => args.2.2.2.2) (args_of_run run)
    refine ⟨fun i d found => ?_, fun between => List.append_eq_nil_iff.mp ?_⟩
    · have begun := (List.getElem?_eq_some_iff.mp found).1
      obtain ⟨tv, ev, d', ⟨-, event, bytes⟩, read, found', bytes'⟩ := steady.done i begun
      obtain rfl : d' = d := Option.some.inj (found'.symm.trans found)
      rw [number] at bytes bytes'
      exact ⟨r, tv.nanos, ev, _, rfl, event, read, rfl, rfl, by rw [bytes, decode_message],
        by rw [bytes', decode_message]⟩
    · have stands := steady.stands
      unfold Call.Stands at stands
      rcases between with head | returned
      · rw [head] at stands
        exact stands.2.1
      · rw [returned] at stands
        exact stands.2 (failures_of_run run)
  · obtain ⟨-, sent, queued, pending, -⟩ := mute_run (fun r same => known ⟨r, same⟩) run
    rw [sent]
    exact ⟨fun i d found => (by cases found), fun _ => ⟨queued, pending⟩⟩

/-- The messages of an iteration looped back late, the event sent by the NIC at 5. -/
def lateLoopbacks : List CallLabel :=
  [.event ⟨7, 0⟩ ⟨0, 3⟩ ⟨0, 5⟩, .poll, .loopback, .poll, .poll, .loopback, .poll, .followUp ⟨0, 8⟩ ⟨0, 9⟩]

theorem follow_up_attribution_late : ∃ x d ev,
    Run (Call.step .little) Call.NoFailure
      (Call.start (sendUdpPacketsTimestamp ⟨0x0200007f, 2⟩ .delayReq payloadSize 2 0)) lateLoopbacks x ∧
    x.sent[1]? = some d ∧ x.sent[0]? = some ev ∧ (decode .big d.bytes).t2 = ev.nic.nanos := by
  obtain ⟨x, run, length⟩ := run_of_exec (Call.step .little) Call.NoFailure
    (Call.start (sendUdpPacketsTimestamp ⟨0x0200007f, 2⟩ .delayReq payloadSize 2 0)) lateLoopbacks
    (fun x => x.sent.length) 2 (by decide +kernel)
  have found : x.sent[1]? = some x.sent[1] := List.getElem?_eq_getElem _
  obtain ⟨attributed, -⟩ := follow_up_attribution .little _ _ _ _ _ _ run
  obtain ⟨r, user, ev, m, kind, event, -, -, -, -, content⟩ := attributed 0 _ found
  obtain rfl : r = .master := by
    cases r with
    | master => rfl
    | slave => cases kind
  exact ⟨x, _, ev, run, found, event, by rw [content]; rfl⟩

end Mdelay
