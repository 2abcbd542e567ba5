import Mdelay.Proofs.EndToEnd
import Mdelay.Protocol.Workload

/-!
# A loss-free run ends

Polls of an empty error queue apart, a run takes at most a fixed number of steps for each number to
be measured, and some other step is enabled until the sender and both loops are done.
-/

namespace Mdelay
open ByteOrder TwoStep Transition

variable {c : Config} {n : Nat} {positive : Prop} {s t : Sys c} {a : Exchange Timespec}

/-- Every step but a poll that finds the error queue empty. -/
def Sys.busy (s : Sys c) : Label → Bool
  | .poll r => !(s.host r).errq.queued.isEmpty
  | _ => true

def Sys.SenderDone (s : Sys c) : Prop := ∃ x, (s.host .master).sender = some x ∧ x.pc = .returned

def Sys.Finished (s : Sys c) : Prop := s.SenderDone ∧ ∀ r, (s.host r).loop.status = .left

/-! ### The bound -/

/-- The steps a host can take on its error queue, where a message still to be looped back will be
read as well, and the return of the slave's call. -/
def Host.backlog {p : Program} (r : Role) (h : Host p) : Nat :=
  2 * h.errq.pending.length + h.errq.queued.length + if r = .slave ∧ h.sender.isSome then 1 else 0

def Sys.backlog (s : Sys c) : Nat := (s.host .master).backlog .master + (s.host .slave).backlog .slave

theorem backlog_setHost {r : Role} {h : Host (c.program r)} {spent gained : Nat}
    (le : h.backlog r + spent ≤ (s.host r).backlog r + gained) :
    (s.setHost r h).backlog + spent ≤ s.backlog + gained := by
  cases r with
  | master =>
    have other : (s.setHost .master h).host .slave = s.host .slave := setHost_of_ne (by decide) h
    rw [Sys.backlog, Sys.backlog, setHost_self, other]
    omega
  | slave =>
    have other : (s.setHost .slave h).host .master = s.host .master := setHost_of_ne (by decide) h
    rw [Sys.backlog, Sys.backlog, setHost_self, other]
    omega

theorem backlog_sendto {r : Role} {x : Sender} (calls : (s.host r).sender = some x) (sw nic : Timespec)
    (out : Sender × Option (List Byte)) : (s.sendto r sw nic out).backlog + 1 ≤ s.backlog + sendCost := by
  obtain ⟨x', bytes⟩ := out
  cases bytes with
  | none =>
    refine backlog_setHost (h := { s.host r with sender := some x' }) ?_
    simp [Host.backlog, calls, sendCost]
  | some bytes =>
    refine backlog_setHost (h := { s.host r with sender := some x', errq := (s.host r).errq.sendto sw nic }) ?_
    simp only [Host.backlog, ErrQueue.sendto, calls, Option.isSome_some, List.length_append, List.length_cons,
      List.length_nil, sendCost]
    omega

theorem backlog_receive {p : Program} (r : Role) (h : Host p) (outcome : DoRecv p.State) :
    (h.receive outcome).backlog r + 1 ≤ h.backlog r + receiveCost r.side := by
  cases outcome with
  | returned | exited | faulted => cases r <;> simp [Host.backlog, Host.receive, receiveCost, Role.side]
  | sending got st x =>
    cases r with
    | master => simp [Host.backlog, Host.receive, receiveCost, Role.side]
    | slave =>
      simp only [Host.backlog, Host.receive, receiveCost, Role.side]
      split <;> split <;> omega

theorem backlog_step {l : Label} (lossless : Lossless s l) (taken : s.step l = some t) :
    t.backlog + (if s.busy l then 1 else 0) ≤ s.backlog + l.action.elim 0 Action.cost := by
  cases l with
  | event r tv sw nic =>
    obtain ⟨x, calls, -, rfl⟩ := step_event.mp taken
    exact backlog_sendto calls sw nic _
  | followUp r sw nic =>
    obtain ⟨x, calls, -, rfl⟩ := step_followUp.mp taken
    exact backlog_sendto calls sw nic _
  | poll r =>
    obtain ⟨x, calls, -, rfl⟩ := step_poll.mp taken
    refine backlog_setHost ?_
    cases queued : (s.host r).errq.queued <;>
      simp [Host.backlog, Sys.busy, ErrQueue.recvmsg, queued, calls, Label.action]
  | loopback r =>
    obtain ⟨q, looped, rfl⟩ := step_loopback.mp taken
    refine backlog_setHost ?_
    cases pending : (s.host r).errq.pending with
    | nil =>
      rw [ErrQueue.loopback, pending] at looped
      cases looped
    | cons cmsgs rest =>
      rw [ErrQueue.loopback, pending] at looped
      obtain rfl := Option.some.inj looped
      simp [Host.backlog, Sys.busy, pending, Label.action]
      omega
  | resume =>
    obtain ⟨x, calls, -, rfl⟩ := step_resume.mp taken
    refine backlog_setHost ?_
    simp [Host.backlog, Sys.busy, calls, Label.action]
  | deliver r i k cmsgs =>
    obtain ⟨d, nic, -, -, -, rfl⟩ := step_deliver.mp taken
    exact backlog_setHost (backlog_receive r (s.host r) _)
  | drop | dup => exact lossless.elim

theorem busySteps_bounded (started : c.Started n) {var : Role → Int} {ls : List Label}
    (run : Run Sys.step Lossless (Sys.start c var) ls s) :
    busySteps Sys.step Sys.busy (Sys.start c var) ls ≤ 26 * n := by
  have whole := busySteps_le Sys.busy (Refines c n (∀ r, 0 < var r))
    (fun s a => a.workload + s.backlog) ?_ (refines_start started var) run
  · rwa [Exchange.workload_start] at whole
  · intro s a l t refines lossless taken
    have backlog := backlog_step lossless taken
    have answer := refines_step started refines taken
    cases action : l.action with
    | none =>
      rw [action] at answer backlog
      exact ⟨a, answer, by simpa [Nat.add_assoc] using Nat.add_le_add_left backlog a.workload⟩
    | some k =>
      rw [action] at answer backlog
      obtain ⟨b, stepped, refines'⟩ := answer
      have work := Exchange.workload_step refines.traced.orderly (lossless_action action lossless)
        (Exchange.stepped_iff.mp stepped)
      refine ⟨b, refines', ?_⟩
      simp only [Option.elim_some] at backlog
      omega

/-! ### Progress -/

/-- A step that loses and duplicates nothing and is no poll of an empty error queue. -/
def Sys.CanMove (s : Sys c) : Prop := ∃ l t, Lossless s l ∧ s.busy l = true ∧ s.step l = some t

theorem canMove_of_unread (refines : Refines c n positive s a) {r : Role} {x : Sender}
    (calls : (s.host r).sender = some x) (reads : x.pc.reads = true)
    (unread : (s.host r).errq.queued ++ (s.host r).errq.pending ≠ []) : s.CanMove := by
  cases queued : (s.host r).errq.queued with
  | cons cmsgs rest =>
    have busy : s.busy (.poll r) = true := by simp [Sys.busy, queued]
    exact ⟨.poll r, _, trivial, busy, step_poll.mpr ⟨x, calls, ⟨alive_of_refines refines r, reads⟩, rfl⟩⟩
  | nil =>
    cases pending : (s.host r).errq.pending with
    | cons cmsgs rest =>
      have looped : (s.host r).errq.loopback = some ⟨(s.host r).errq.queued ++ [cmsgs], rest⟩ := by
        rw [ErrQueue.loopback, pending]
      exact ⟨.loopback r, _, trivial, rfl, step_loopback.mpr ⟨_, looped, rfl⟩⟩
    | nil => exact absurd (by rw [queued, pending]; rfl) unread

theorem canMove_of_sender (refines : Refines c n positive s a) {r : Role} {x : Sender}
    (calls : (s.host r).sender = some x) : s.CanMove ∨ x.pc = .returned := by
  have alive := alive_of_refines refines r
  have sends := (refines.host r).sends
  rw [calls] at sends
  have stands := sends.stands
  rw [Sender.Stands] at stands
  cases pc : x.pc with
  | loopHead =>
    exact Or.inl ⟨.event r ⟨0, 0⟩ ⟨0, 0⟩ ⟨0, 0⟩, _, trivial, rfl, step_event.mpr ⟨x, calls, ⟨alive, pc⟩, rfl⟩⟩
  | followUp => exact Or.inl ⟨.followUp r ⟨0, 0⟩ ⟨0, 0⟩, _, trivial, rfl,
      step_followUp.mpr ⟨x, calls, ⟨alive, pc⟩, rfl⟩⟩
  | kernelRead =>
    rw [pc] at stands
    obtain ⟨-, -, sw, nic, user, unread, -⟩ := stands
    exact Or.inl (canMove_of_unread refines calls (by rw [pc]; rfl) (by simp [unread]))
  | nicRead =>
    rw [pc] at stands
    obtain ⟨-, -, nic, user, unread, -⟩ := stands
    exact Or.inl (canMove_of_unread refines calls (by rw [pc]; rfl) (by simp [unread]))
  | drainKernel =>
    rw [pc] at stands
    obtain ⟨-, -, ts, ts', unread⟩ := stands
    exact Or.inl (canMove_of_unread refines calls (by rw [pc]; rfl) (by simp [unread]))
  | drainNic =>
    rw [pc] at stands
    obtain ⟨-, -, ts, unread⟩ := stands
    exact Or.inl (canMove_of_unread refines calls (by rw [pc]; rfl) (by simp [unread]))
  | returned => exact Or.inr rfl
  | exited | faulted =>
    rw [pc] at stands
    exact stands.elim

theorem canMove_of_message (refines : Refines c n positive s a) {m : Message Timespec} (member : m ∈ a.net)
    (running : (s.host (playedBy m.dest)).loop.status = .running)
    (idle : playedBy m.dest = .slave → (s.host (playedBy m.dest)).sender = none) : s.CanMove := by
  obtain ⟨d, member', carries⟩ := Related.mem_right refines.net member
  obtain ⟨i, found⟩ := List.mem_iff_getElem?.mp member'
  have waits : (s.host (playedBy m.dest)).waits (playedBy m.dest) = true := by
    have free : playedBy m.dest = .master ∨ (s.host (playedBy m.dest)).sender = none := by
      cases role : playedBy m.dest with
      | master => exact Or.inl rfl
      | slave => exact Or.inr (role ▸ idle role)
    simp [Host.waits, alive_of_refines refines, running, free]
  exact ⟨.deliver (playedBy m.dest) i .cleared (nicControl ⟨0, 0⟩), _, trivial, rfl,
    step_deliver.mpr ⟨d, ⟨0, 0⟩, found, rfl, ⟨carries.dst, waits⟩, rfl⟩⟩

theorem bound_of_equal (started : c.Started n) (numbers : ∀ r, (c.measureNumber r).toInt = n) (p : Side) :
    c.bound p = n := by
  cases p with
  | initiator => exact bound_master started
  | responder =>
    have bound := bound_slave started
    rw [numbers .slave] at bound
    exact_mod_cast bound

/-- A loop that waits for more, with nothing left to send on the other side, has a follow-up to wait for. -/
theorem canMove_of_running (started : c.Started n) (numbers : ∀ r, (c.measureNumber r).toInt = n)
    (refines : Refines c n positive s a) (supplied : Exchange.Supplied n a) {r : Role}
    (running : (s.host r).loop.status = .running) (idle : r = .slave → (s.host r).sender = none)
    (other : a.todo r.peer.side = []) (asked : r = .master → n ≤ (a.recorder .responder).count) : s.CanMove := by
  have few : (a.recorder r.side).count < n := by
    cases (refines.host r).loops with
    | running status var few got =>
      have free : r = .master ∨ (s.host r).sender = none := by
        cases r with
        | master => exact Or.inl rfl
        | slave => exact Or.inr (idle rfl)
      rw [← bound_of_equal started numbers r.side, Config.bound, playedBy_side]
      exact few free
    | left status enough idle =>
      rw [status] at running
      cases running
  obtain ⟨m, member, here, -⟩ := supplied r.side few
    (by cases r <;> exact other) (fun initiator => asked (by cases r <;> first | rfl | cases initiator))
  obtain rfl : r = playedBy m.dest := by rw [here, playedBy_side]
  exact canMove_of_message refines member running idle

theorem progress_of_supplied (started : c.Started n) (numbers : ∀ r, (c.measureNumber r).toInt = n)
    (entered : positive) (refines : Refines c n positive s a) (supplied : Exchange.Supplied n a) :
    s.CanMove ∨ s.Finished := by
  by_cases move : s.CanMove
  · exact Or.inl move
  -- The master's call has returned, and the slave's has and was resumed.
  have master : ∃ x, (s.host .master).sender = some x ∧ x.pc = .returned ∧ a.todo .initiator = [] := by
    have sends := (refines.host .master).sends
    cases calls : (s.host .master).sender with
    | none =>
      rw [calls] at sends
      cases sends.1
    | some x =>
      rw [calls] at sends
      have returned := (canMove_of_sender refines calls).resolve_left move
      have stands := sends.stands
      rw [Sender.Stands, returned] at stands
      exact ⟨x, rfl, returned, stands.2.1⟩
  have slave : (s.host .slave).sender = none ∧ a.todo .responder = [] := by
    have sends := (refines.host .slave).sends
    cases calls : (s.host .slave).sender with
    | none =>
      rw [calls] at sends
      exact ⟨rfl, sends.2.2.1⟩
    | some x =>
      have returned := (canMove_of_sender refines calls).resolve_left move
      exact absurd ⟨.resume, _, trivial, rfl,
        step_resume.mpr ⟨x, calls, ⟨alive_of_refines refines .slave, returned⟩, rfl⟩⟩ move
  obtain ⟨x, calls, returned, sent⟩ := master
  obtain ⟨none, answered⟩ := slave
  have leftSlave : (s.host .slave).loop.status = .left := by
    cases (refines.host .slave).loops with
    | left status => exact status
    | running status =>
      exact absurd (canMove_of_running started numbers refines supplied status (fun _ => none) sent
        fun master => by cases master) move
  have leftMaster : (s.host .master).loop.status = .left := by
    cases (refines.host .master).loops with
    | left status => exact status
    | running status =>
      exact absurd (canMove_of_running started numbers refines supplied status (fun slave => by cases slave) answered
        fun _ => enough_of_left started refines entered leftSlave) move
  refine Or.inr ⟨⟨x, calls, returned⟩, fun r => ?_⟩
  cases r with
  | master => exact leftMaster
  | slave => exact leftSlave

theorem progress (started : c.Started n) (numbers : ∀ r, (c.measureNumber r).toInt = n) (entered : positive)
    (refines : Refines c n positive s a) (balanced : Exchange.Balanced a) : s.CanMove ∨ s.Finished :=
  progress_of_supplied started numbers entered refines (Exchange.supplied_of_balanced refines.traced balanced)

/-- No deadlock, a bound on the steps, and what holds when there are no more. -/
theorem lossless_run_ends (one : 1 ≤ n) (fits : n ≤ Master.entries) (numbers : ∀ r, (c.measureNumber r).toInt = n)
    (var : Role → Int) (entered : ∀ r, 0 < var r) (ls : List Label)
    (run : Run Sys.step Lossless (Sys.start c var) ls s) :
    (¬ s.Finished → ∃ l t, Lossless s l ∧ s.busy l = true ∧ s.step l = some t) ∧
    busySteps Sys.step Sys.busy (Sys.start c var) ls ≤ 26 * n ∧
    ((¬ ∃ l t, Lossless s l ∧ s.busy l = true ∧ s.step l = some t) →
      s.SenderDone ∧ ∀ r, ((c.program r).total (s.host r).loop.st).toNat = n) := by
  have started := started_of_equal one fits numbers
  obtain ⟨a, run', refines⟩ := refines_lossless started run
  obtain ⟨traced, balanced⟩ := Exchange.balanced_run run'
  have progress := progress started numbers entered refines balanced
  refine ⟨progress.resolve_right, busySteps_bounded started run, fun stuck => ?_⟩
  obtain ⟨done, left⟩ := progress.resolve_left stuck
  refine ⟨done, fun r => ?_⟩
  rw [toNat_total_of_refines refines r]
  have enough := traced.orderly.enough r.side
  rw [bound_of_equal started numbers] at enough
  exact enough.antisymm (enough_of_left started refines entered (left r))

theorem lossless_run_ends_single : ∃ s,
    Run Sys.step Lossless (Sys.start .single fun _ => 1) (measurement ⟨7, 0⟩ 0) s ∧
    busySteps Sys.step Sys.busy (Sys.start .single fun _ => 1) (measurement ⟨7, 0⟩ 0) ≤ 26 ∧
    (¬ s.Finished → ∃ l t, Lossless s l ∧ s.busy l = true ∧ s.step l = some t) := by
  obtain ⟨s, run, -⟩ := run_measurement
  have lossless : Run Sys.step Lossless (Sys.start .single fun _ => 1) _ s :=
    run_mono (fun _ _ => lossless_of_ordered) run
  obtain ⟨moves, bounded, -⟩ := lossless_run_ends (n := 1) (by decide) (by decide) (fun _ => rfl) _
      (fun _ => Int.one_pos)
    _ lossless
  exact ⟨s, lossless, bounded, moves⟩

end Mdelay
