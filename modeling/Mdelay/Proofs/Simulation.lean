import Mdelay.Proofs.Refinement

/-!
# Every step of the system is a step of the exchange, or none

One lemma for each label, and from them the simulation of whole runs under the three schedules.
-/

namespace Mdelay
open ByteOrder TwoStep Transition

variable {c : Config} {n : Nat} {positive : Prop} {s t : Sys c} {a : Exchange Timespec}

/-! ### The start -/

theorem numbers_master (started : c.Started n) (dsa : SockaddrIn) :
    (Master.sendPackets dsa (c.measureNumber .master)).numbers 0 = List.range n := by
  have small : n ≤ 100 := started.entries
  have count : (Master.sendPackets dsa (c.measureNumber .master)).n.toNat = n := by
    change (c.measureNumber .master).toInt.toNat = n
    rw [started.master]
    rfl
  rw [Sender.numbers, count, Nat.sub_zero, ← List.range_eq_range']
  refine (List.map_congr_left fun i member => ?_).trans (List.map_id _)
  have inside := List.mem_range.mp member
  change ((0#32) + BitVec.ofNat 32 i).toNat = i
  rw [BitVec.zero_add, toNat_seq (by omega)]

theorem refines_start (started : c.Started n) (var : Role → Int) :
    Refines c n (∀ r, 0 < var r) (Sys.start c var) (Exchange.start n) where
  host r := by
    have few : (Recorder.empty (T := Timespec)).count < (c.program r).bound.toNat := by
      have enough := le_bound started r.side
      have some := started.positive
      rw [Config.bound, playedBy_side] at enough
      exact Nat.lt_of_lt_of_le some enough
    have entered : 0 < var r ∨ ¬ (∀ r, 0 < var r) ∧ 0 ≤ 1 ∧
        (r = .master ∨ ((Sys.start c var).host r).sender = none → 0 = 0) := by
      by_cases positive : 0 < var r
      · exact Or.inl positive
      · exact Or.inr ⟨fun all => positive (all r), Nat.zero_le 1, fun _ => rfl⟩
    cases r with
    | master =>
      have calling := calling_start .master (c.endian .master) (c.address .slave) (c.measureNumber .master).toInt 0
      refine ⟨represents_calloc _, ?_, .running rfl entered (fun _ => few) (fun _ slave => by cases slave)⟩
      have numbers := numbers_master started (c.address .slave)
      change Calling .master _ _ _ _ (List.range n) none
      rw [← numbers]
      exact calling
    | slave =>
      exact ⟨represents_calloc _, ⟨rfl, rfl, rfl, rfl⟩,
        .running rfl entered (fun _ => few) (fun none => absurd rfl none)⟩
  peer counted := absurd rfl counted
  net := .nil
  trace := rfl
  traced := Exchange.traced_start n c.bound

/-! ### Steps of the sender -/

theorem refines_event (refines : Refines c n positive s a) {r : Role} {tv : Timeval} {sw nic : Timespec}
    (taken : s.step (.event r tv sw nic) = some t) :
    ∃ b, Exchange.step c.bound a (.event r.side nic) = some b ∧ Refines c n positive t b := by
  obtain ⟨x, calls, guard, rfl⟩ := step_event.mp taken
  have sends := (refines.host r).sends
  rw [calls] at sends
  obtain ⟨k, rest, x', todo, stage, small, sent, calling⟩ := calling_event sends guard.2 tv sw nic
  have stepped : Exchange.step c.bound a (.event r.side nic) = some (a.sendEvent r.side k nic) := by
    simp only [Exchange.step, todo, stage]
  have content : (r.eventHeader (BitVec.ofNat 32 k) tv.nanos).message r.pktsize r.eventFill =
      (messageHeader ⟨r.side.other, k, none⟩ tv.nanos).message r.pktsize r.eventFill := by
    simp [messageHeader]
  rw [sent]
  refine ⟨_, stepped, refines_sendto refines calls ?_ rfl ?_ rfl rfl rfl
    (Exchange.traced_step refines.traced (Exchange.stepped_iff.mp stepped)) content⟩
  · simpa [Exchange.sendEvent] using calling
  · cases r <;> rfl

theorem refines_followUp (refines : Refines c n positive s a) {r : Role} {sw nic : Timespec}
    (taken : s.step (.followUp r sw nic) = some t) :
    ∃ b, Exchange.step c.bound a (.followUp r.side nic) = some b ∧ Refines c n positive t b := by
  obtain ⟨x, calls, guard, rfl⟩ := step_followUp.mp taken
  have sends := (refines.host r).sends
  rw [calls] at sends
  obtain ⟨k, rest, u, user, x', todo, stage, small, sent, calling⟩ := calling_followUp sends guard.2 sw nic
  have stepped : Exchange.step c.bound a (.followUp r.side nic) = some (a.sendFollowUp r.side k rest u nic) := by
    simp only [Exchange.step, todo, stage]
  have content : (r.followUpHeader (BitVec.ofNat 32 k) user u.nanos).message r.pktsize r.followUpFill =
      (messageHeader ⟨r.side.other, k, some u⟩ user).message r.pktsize r.followUpFill := by
    simp [messageHeader]
  rw [sent]
  refine ⟨_, stepped, refines_sendto refines calls ?_ ?_ ?_ rfl rfl rfl
    (Exchange.traced_step refines.traced (Exchange.stepped_iff.mp stepped)) content⟩
  · simpa [Exchange.sendFollowUp] using calling
  · cases r <;> rfl
  · cases r <;> rfl

theorem refines_poll (refines : Refines c n positive s a) {r : Role} (taken : s.step (.poll r) = some t) :
    Refines c n positive t a := by
  obtain ⟨x, calls, guard, rfl⟩ := step_poll.mp taken
  have host := refines.host r
  have sends := host.sends
  rw [calls] at sends
  exact refines_setHost refines ⟨host.meas, calling_poll sends guard.2, host.loops.send calls _ _⟩ rfl

theorem refines_loopback (refines : Refines c n positive s a) {r : Role} (taken : s.step (.loopback r) = some t) :
    Refines c n positive t a := by
  obtain ⟨q, looped, rfl⟩ := step_loopback.mp taken
  have host := refines.host r
  have sends := host.sends
  refine refines_setHost refines ⟨host.meas, ?_, ?_⟩ rfl
  · cases calls : (s.host r).sender with
    | some x =>
      rw [calls] at sends
      exact calling_loopback sends looped
    | none =>
      rw [calls] at sends
      rw [sends.2.1] at looped
      cases looped
  · cases host.loops with
    | running status var few got => exact .running status var few got
    | left status enough idle => exact .left status enough idle

/-! ### The return of do_recv -/

theorem loops_afterRecv {p : Program} {r : Role} {h : Host p} {got : Int} {st : p.State} {rec : Recorder Timespec}
    {received : Nat} (rep : Represents Timespec.nanos (p.measurements st) rec)
    (fits : rec.count < 2 ^ 64) (some : 0 < got)
    (var : 0 < h.loop.var ∨ ¬ positive ∧ received ≤ 1) (idle : r = .slave → h.sender = none) :
    Loops positive r { h with loop := p.afterRecv h.loop got st } rec.count received := by
  have below : p.total st < p.bound ↔ rec.count < p.bound.toNat := by
    rw [BitVec.lt_def, Program.total, rep.count, BitVec.toNat_ofNat, Nat.mod_eq_of_lt fits]
  by_cases passed : got ≠ 0 ∧ 0 < h.loop.var ∧ p.total st < p.bound
  · rw [afterRecv_of_test passed]
    exact .running rfl (Or.inl Int.one_pos) (fun _ => below.mp passed.2.2)
      fun busy slave => absurd (idle slave) busy
  · rw [afterRecv_of_not_test passed]
    refine .left rfl (var.imp_left fun entered => Nat.le_of_not_lt fun few => passed ?_) idle
    exact ⟨Int.ne_of_gt some, entered, below.mpr few⟩

theorem count_lt (refines : Refines c n positive s a) (p : Side) : (a.recorder p).count < 2 ^ 64 :=
  Nat.lt_of_le_of_lt (refines.traced.orderly.enough p) (bound_lt c p)

theorem peer_setHost {h : Host (c.program .slave)}
    (peer : Slave.State.Peer (c.endian .slave) (c.address .master) h.loop.st) :
    Slave.State.Peer (c.endian .slave) (c.address .master) ((s.setHost .slave h).host .slave).loop.st := by
  rw [setHost_self]
  exact peer

theorem refines_resume (refines : Refines c n positive s a) (taken : s.step .resume = some t) :
    Refines c n positive t a := by
  obtain ⟨x, calls, guard, rfl⟩ := step_resume.mp taken
  have host := refines.host .slave
  have sends := host.sends
  rw [calls] at sends
  have stands := sends.stands
  rw [Sender.Stands, guard.2] at stands
  obtain ⟨unread, todo, stage⟩ := stands
  obtain ⟨queued, pending⟩ := List.append_eq_nil_iff.mp unread
  have errq : (s.host .slave).errq = ⟨[], []⟩ := ErrQueue.ext queued pending
  have busy : (s.host .slave).sender ≠ none := by
    rw [calls]
    exact Option.some_ne_none x
  cases host.loops with
  | left status enough idle => exact absurd (idle rfl) busy
  | running status var few got =>
    refine {
      host := hosts_set refines.host (r := .slave) ⟨host.meas, ⟨rfl, errq, todo, stage⟩, ?_⟩ rfl rfl rfl rfl
      peer := peer_setHost refines.peer
      net := refines.net
      trace := refines.trace
      traced := refines.traced }
    exact loops_afterRecv (h := { s.host .slave with sender := none }) host.meas (count_lt refines _)
      (got busy rfl) (var.imp_right fun later => ⟨later.1, later.2.1⟩) fun _ => rfl

/-! ### A delivery -/

variable {cmsgs : List Cmsghdr} {nic : Timespec}

theorem Loops.var_of_running {p : Program} {r : Role} {h : Host p} {count received : Nat}
    (loops : Loops positive r h count received) (running : h.loop.status = .running)
    (free : r = .master ∨ h.sender = none) :
    0 < h.loop.var ∨ ¬ positive ∧ received = 0 := by
  cases loops with
  | running status var few got => exact var.imp_right fun ⟨negative, _, idle⟩ => ⟨negative, idle free⟩
  | left status enough idle =>
    rw [status] at running
    cases running

theorem messageHeader_event (dest : Side) (k : Nat) (user : BitVec 64) :
    messageHeader ⟨dest, k, none⟩ user = (playedBy dest).peer.eventHeader (BitVec.ofNat 32 k) user := rfl

theorem messageHeader_followUp (dest : Side) (k : Nat) (t : Timespec) (user : BitVec 64) :
    messageHeader ⟨dest, k, some t⟩ user = (playedBy dest).peer.followUpHeader (BitVec.ofNat 32 k) user t.nanos := rfl

theorem receptions_receive (a : Exchange Timespec) (i : Nat) (m : Message Timespec) (t : Timespec) (p : Side) :
    receptions (a.receive i m t).trace p = receptions a.trace p + if m.dest = p then 1 else 0 := by
  rw [Exchange.receive, receptions_snoc]
  simp

/-- Stated for any datagram, since at a given one Lean would evaluate `doRecv` to compare the two sides. -/
theorem receive_master {h : Host (c.program .master)} {k : Stack} {r : Recvmsg} {out : DoRecv (c.program .master).State}
    (outcome : Master.doRecv (c.endian .master) k r h.loop.st = out) :
    h.receive ((c.program .master).doRecv k r h.loop.st) = h.receive out :=
  congrArg h.receive outcome

theorem receive_slave {h : Host (c.program .slave)} {k : Stack} {r : Recvmsg} {out : DoRecv (c.program .slave).State}
    (outcome : Slave.doRecv (c.endian .slave) k r h.loop.st = out) :
    h.receive ((c.program .slave).doRecv k r h.loop.st) = h.receive out :=
  congrArg h.receive outcome

theorem receives_master (stack : Stack) (user : BitVec 64) (size : Nat) (fill : Byte) {h : Host (c.program .master)}
    (host : HostRefines c positive .master h a) (running : h.loop.status = .running) {i k : Nat}
    {stamp : Option Timespec} (small : k < Master.entries) (src : SockaddrIn) (read : nicTime cmsgs = some nic)
    (fits : ((a.receive i ⟨.initiator, k, stamp⟩ nic).recorder .initiator).count < 2 ^ 64) :
    let h' := h.receive ((c.program .master).doRecv stack
      (.message ((messageHeader ⟨.initiator, k, stamp⟩ user).message size fill) src cmsgs) h.loop.st)
    HostRefines c positive .master h' (a.receive i ⟨.initiator, k, stamp⟩ nic) := by
  intro h'
  have returns : ∃ got m', 0 < got ∧ Master.doRecv (c.endian .master) stack
      (.message ((messageHeader ⟨.initiator, k, stamp⟩ user).message size fill) src cmsgs) h.loop.st = .returned got m' ∧
      Represents Timespec.nanos m' ((a.receive i ⟨.initiator, k, stamp⟩ nic).recorder .initiator) := by
    cases stamp with
    | none =>
      rw [messageHeader_event]
      exact Master.receive_event (c.endian .master) stack size fill src read host.meas small
    | some t =>
      rw [messageHeader_followUp]
      exact Master.receive_followUp (c.endian .master) stack size fill src cmsgs host.meas small
  obtain ⟨got, m', some, returned, rep⟩ := returns
  have after : h' = h.receive (.returned got m') := receive_master returned
  have var := host.loops.var_of_running running (Or.inl rfl)
  have received := receptions_receive a i ⟨.initiator, k, stamp⟩ nic .initiator
  rw [after]
  refine ⟨rep, host.sends, loops_afterRecv rep fits some (var.imp_right fun ⟨negative, zero⟩ => ⟨negative, ?_⟩)
    fun slave => by cases slave⟩
  exact (received.trans (congrArg (· + 1) zero)).le

theorem numbers_answer (addr : SockaddrIn) {k : Nat} (word : k < 2 ^ 32) :
    (sendUdpPacketsTimestamp addr Role.slave.pkttype Role.slave.pktsize 1 (BitVec.ofNat 32 k)).numbers 0 = [k] := by
  change [(BitVec.ofNat 32 k + 0#32).toNat] = [k]
  rw [BitVec.add_zero, toNat_seq word]

/-- A follow-up makes the slave call the sender, and its one task is the number it answers. -/
theorem receives_slave (stack : Stack) (user : BitVec 64) (size : Nat) (fill : Byte) {h : Host (c.program .slave)}
    (host : HostRefines c positive .slave h a)
    (peer : Slave.State.Peer (c.endian .slave) (c.address .master) h.loop.st) (running : h.loop.status = .running)
    (idle : h.sender = none) {i k : Nat} {stamp : Option Timespec} (small : k < (c.program .slave).cap)
    (word : k < 2 ^ 32) (read : nicTime cmsgs = some nic)
    (fits : ((a.receive i ⟨.responder, k, stamp⟩ nic).recorder .responder).count < 2 ^ 64) :
    let h' := h.receive ((c.program .slave).doRecv stack
      (.message ((messageHeader ⟨.responder, k, stamp⟩ user).message size fill) (c.address .master) cmsgs) h.loop.st)
    HostRefines c positive .slave h' (a.receive i ⟨.responder, k, stamp⟩ nic) ∧
      Slave.State.Peer (c.endian .slave) (c.address .master) h'.loop.st := by
  intro h'
  have sends := host.sends
  rw [idle] at sends
  have var := host.loops.var_of_running running (Or.inr idle)
  have received := receptions_receive a i ⟨.responder, k, stamp⟩ nic .responder
  have one (zero : receptions a.trace .responder = 0) :
      receptions (a.receive i ⟨.responder, k, stamp⟩ nic).trace .responder ≤ 1 :=
    (received.trans (congrArg (· + 1) zero)).le
  cases stamp with
  | none =>
    obtain ⟨got, st, some, returned, rep, peer⟩ :=
      Slave.receive_event (c.endian .slave) stack size fill read host.meas small word peer
    have after : h' = h.receive (.returned got st) := receive_slave returned
    rw [after]
    exact ⟨⟨rep, host.sends, loops_afterRecv rep fits some
      (var.imp_right fun ⟨negative, zero⟩ => ⟨negative, one zero⟩)
      fun _ => idle⟩, peer⟩
  | some t =>
    obtain ⟨got, st, filled, sending, rep, peer⟩ :=
      Slave.receive_followUp (c.endian .slave) stack size fill cmsgs host.meas small word peer
    have after : h' = h.receive (.sending got st _) := receive_slave sending
    rw [after]
    obtain ⟨-, errq, -, stage⟩ := sends
    have calling := calling_start .slave (c.endian .slave) (c.address .master) 1 (BitVec.ofNat 32 k)
    dsimp only at calling
    rw [numbers_answer _ word, ← errq, ← stage] at calling
    have busy {x : Sender} : ¬ (Role.slave = .master ∨ some x = none) := by
      rintro (master | none)
      · cases master
      · cases none
    refine ⟨⟨rep, calling, .running running ?_ (fun free => absurd free busy) fun _ _ => filled⟩, peer⟩
    exact var.imp_right fun ⟨negative, zero⟩ => ⟨negative, one zero, fun free => absurd free busy⟩

theorem accepts_of_waits (refines : Refines c n positive s a) {r : Role} (waits : (s.host r).waits r = true) :
    a.accepts c.bound r.side ∧ (s.host r).loop.status = .running ∧ (r = .slave → (s.host r).sender = none) := by
  have host := refines.host r
  simp only [Host.waits, Bool.and_eq_true, Bool.or_eq_true, decide_eq_true_eq, Option.isNone_iff_eq_none] at waits
  obtain ⟨⟨-, running⟩, free⟩ := waits
  have idle (slave : r = .slave) : (s.host r).sender = none := by
    rcases free with master | none
    · rw [slave] at master
      cases master
    · exact none
  refine ⟨⟨?_, fun responder => ?_⟩, running, idle⟩
  · cases host.loops with
    | running status var few got =>
      rw [Config.bound, playedBy_side]
      exact few free
    | left status enough idle =>
      rw [status] at running
      cases running
  · have slave : r = .slave := by
      cases r
      · cases responder
      · rfl
    have sends := host.sends
    rw [idle slave] at sends
    exact sends.2.2.1

theorem host_receive (stack : Stack) (started : c.Started n) (refines : Refines c n positive s a) {d : Datagram}
    {m : Message Timespec} {i : Nat} (found : a.net[i]? = some m) (carries : Carries c d m)
    (running : (s.host (playedBy m.dest)).loop.status = .running)
    (idle : playedBy m.dest = .slave → (s.host (playedBy m.dest)).sender = none) (read : nicTime cmsgs = some nic)
    (enough : ((a.receive i m nic).recorder m.dest).count ≤ c.bound m.dest) :
    let h := (s.host (playedBy m.dest)).receive ((c.program (playedBy m.dest)).doRecv stack
      (.message d.bytes d.src cmsgs) (s.host (playedBy m.dest)).loop.st)
    (∀ r, HostRefines c positive r ((s.setHost (playedBy m.dest) h).host r) (a.receive i m nic)) ∧
      Slave.State.Peer (c.endian .slave) (c.address .master)
        ((s.setHost (playedBy m.dest) h).host .slave).loop.st := by
  obtain ⟨user, size, fill, content⟩ := carries.bytes
  have src := carries.src
  have small : m.seq < n := refines.traced.numbered.net m (List.mem_of_getElem? found)
  have inside := Nat.lt_of_lt_of_le small (le_cap started (playedBy m.dest))
  have word := Nat.lt_of_lt_of_le small (Nat.le_trans started.entries (by decide : Master.entries ≤ 2 ^ 32))
  have fits := Nat.lt_of_le_of_lt enough (bound_lt c m.dest)
  rw [content, src]
  obtain ⟨dest, k, stamp⟩ := m
  cases dest with
  | initiator =>
    have new := receives_master stack user size fill (refines.host .master) running inside
        (c.address .slave) read fits
    exact ⟨hosts_set refines.host (r := .master) new rfl rfl rfl (receptions_receive ..), refines.peer⟩
  | responder =>
    obtain ⟨new, peer⟩ := receives_slave stack user size fill (refines.host .slave) refines.peer running (idle rfl)
      inside word read fits
    have other : (a.receive i ⟨.responder, k, stamp⟩ nic).todo .initiator = a.todo .initiator := by
      rw [Exchange.receive_todo]
      exact if_neg fun ⟨absurd, _⟩ => by cases absurd
    exact ⟨hosts_set refines.host (r := .slave) new other rfl rfl (receptions_receive ..), peer_setHost peer⟩

theorem refines_deliver (started : c.Started n) (refines : Refines c n positive s a) {r : Role} {i : Nat} {k : Stack}
    (taken : s.step (.deliver r i k cmsgs) = some t) :
    ∃ b, Exchange.step c.bound a (.deliver r.side i ((nicTime cmsgs).getD ⟨0, 0⟩)) = some b ∧
      Refines c n positive t b := by
  obtain ⟨d, nic, found, read, guard, rfl⟩ := step_deliver.mp taken
  obtain ⟨m, found', carries⟩ := Related.getElem? refines.net found
  obtain ⟨accepts, running, idle⟩ := accepts_of_waits refines guard.2
  obtain rfl : r = playedBy m.dest := address_inj (guard.1.symm.trans carries.dst)
  rw [side_playedBy] at accepts
  rw [read, side_playedBy]
  have stepped : Exchange.step c.bound a (.deliver m.dest i nic) = some (a.receive i m nic) := by
    simp [Exchange.step, found', accepts]
  have traced := Exchange.traced_step refines.traced (Exchange.stepped_iff.mp stepped)
  obtain ⟨host, peer⟩ := host_receive k started refines found' carries running idle read
      (traced.orderly.enough m.dest)
  obtain ⟨user, size, fill, content⟩ := carries.bytes
  refine ⟨_, stepped, {
    host := host
    peer := peer
    net := Related.eraseIdx refines.net i
    trace := ?_
    traced := traced }⟩
  rw [Exchange.receive, List.map_append, ← refines.trace, content, obs_received]
  rfl

/-! ### What the network does -/

theorem HostRefines.network {r : Role} {h : Host (c.program r)} (host : HostRefines c positive r h a)
    (net : List (Message Timespec)) : HostRefines c positive r h { a with net := net } :=
  ⟨host.meas, host.sends, host.loops⟩

theorem refines_drop (refines : Refines c n positive s a) {i : Nat} (taken : s.step (.drop i) = some t) :
    ∃ b, Exchange.step c.bound a (.drop i) = some b ∧ Refines c n positive t b := by
  obtain ⟨inside, rfl⟩ := step_drop.mp taken
  rw [refines.net.length_eq] at inside
  have stepped : Exchange.step c.bound a (.drop i) = some { a with net := a.net.eraseIdx i } := by
    simp only [Exchange.step, if_pos inside]
  exact ⟨_, stepped, {
    host := fun r => (refines.host r).network _
    peer := refines.peer
    net := Related.eraseIdx refines.net i
    trace := refines.trace
    traced := Exchange.traced_step refines.traced (Exchange.stepped_iff.mp stepped) }⟩

theorem refines_dup (refines : Refines c n positive s a) {i : Nat} (taken : s.step (.dup i) = some t) :
    ∃ b, Exchange.step c.bound a (.dup i) = some b ∧ Refines c n positive t b := by
  obtain ⟨d, found, rfl⟩ := step_dup.mp taken
  obtain ⟨m, found', carries⟩ := Related.getElem? refines.net found
  have stepped : Exchange.step c.bound a (.dup i) = some { a with net := a.net ++ [m] } := by
    simp only [Exchange.step, found', Option.map_some]
  exact ⟨_, stepped, {
    host := fun r => (refines.host r).network _
    peer := refines.peer
    net := Related.snoc refines.net carries
    trace := refines.trace
    traced := Exchange.traced_step refines.traced (Exchange.stepped_iff.mp stepped) }⟩

/-! ### Runs -/

theorem refines_step (started : c.Started n) (refines : Refines c n positive s a) {l : Label}
    (taken : s.step l = some t) :
    match l.action with
    | none => Refines c n positive t a
    | some k => ∃ b, Exchange.step c.bound a k = some b ∧ Refines c n positive t b := by
  cases l with
  | event r tv sw nic => exact refines_event refines taken
  | followUp r sw nic => exact refines_followUp refines taken
  | poll r => exact refines_poll refines taken
  | loopback r => exact refines_loopback refines taken
  | resume => exact refines_resume refines taken
  | deliver r i k cmsgs => exact refines_deliver started refines taken
  | drop i => exact refines_drop refines taken
  | dup i => exact refines_dup refines taken

theorem followUp_code (c : Config) (r : Role) : (c.program r).followUp.code = r.peer.code true := by cases r <;> rfl

theorem event_code (c : Config) (r : Role) : (c.program r).event.code = r.peer.code false := by cases r <;> rfl

theorem decode_carried {d : Datagram} {m : Message Timespec} (carries : Carries c d m) :
    (decode .big d.bytes).type = (playedBy m.dest).peer.code m.stamp.isSome ∧
      (decode .big d.bytes).seq = BitVec.ofNat 32 m.seq := by
  obtain ⟨user, size, fill, content⟩ := carries.bytes
  rw [content, decode_message]
  exact ⟨messageHeader_type m user, messageHeader_seq m user⟩

theorem lossless_action {l : Label} {k : Action Timespec} (action : l.action = some k) (lossless : Lossless s l) :
    Exchange.Lossless a k := by
  cases l with
  | event | followUp | deliver =>
    obtain rfl := Option.some.inj action
    trivial
  | poll | loopback | resume => cases action
  | drop | dup => exact lossless.elim

theorem ordered_action (refines : Refines c n positive s a) {l : Label} {k : Action Timespec}
    (action : l.action = some k) (ordered : Ordered s l) (taken : s.step l = some t) : Exchange.Ordered a k := by
  refine ⟨lossless_action action (lossless_of_ordered ordered), ?_⟩
  rintro p i time m rfl found stamped m' member here unstamped same
  cases l with
  | deliver r j stack cmsgs =>
    obtain ⟨rfl, rfl, -⟩ := Action.deliver.inj (Option.some.inj action)
    obtain ⟨d, datagram, carries⟩ := Related.getElem?_right refines.net found
    obtain ⟨e, nic, datagram', -, ⟨reached, -⟩, -⟩ := step_deliver.mp taken
    obtain rfl : d = e := Option.some.inj (datagram.symm.trans datagram')
    obtain ⟨d', member', carries'⟩ := Related.mem_right refines.net member
    obtain ⟨type, seq⟩ := decode_carried carries
    obtain ⟨type', seq'⟩ := decode_carried carries'
    have receiver : r = playedBy m.dest := address_inj (reached.symm.trans carries.dst)
    rw [here, playedBy_side, unstamped] at type'
    rw [← receiver, stamped] at type
    have dst' := carries'.dst
    rw [here, playedBy_side] at dst'
    refine ordered ⟨d, datagram, type.trans (followUp_code c r).symm, d', member', dst',
      type'.trans (event_code c r).symm, ?_⟩
    rw [seq, seq', same]
  | event | followUp | poll | loopback | resume | drop | dup => cases action

/-- A run of the system is a run of the exchange, under any schedule whose steps the exchange permits. -/
theorem refines_run (started : c.Started n) {var : Role → Int} {ok : Sys c → Label → Prop}
    {ok' : Exchange Timespec → Action Timespec → Prop}
    (permitted : ∀ s a l k t, Refines c n (∀ r, 0 < var r) s a → l.action = some k → ok s l →
      s.step l = some t → ok' a k)
    {ls : List Label} (run : Run Sys.step ok (Sys.start c var) ls s) :
    ∃ a, Run (Exchange.step c.bound) ok' (Exchange.start n) (ls.filterMap Label.action) a ∧
      Refines c n (∀ r, 0 < var r) s a := by
  refine run_simulate _ _ (Refines c n (∀ r, 0 < var r)) Label.action ?_ (refines_start started var) run
  intro s a l t refines allowed taken
  have answer := refines_step started refines taken
  cases action : l.action with
  | none => rwa [action] at answer
  | some k =>
    rw [action] at answer
    exact ⟨permitted s a l k t refines action allowed taken, answer⟩

theorem refines_any (started : c.Started n) {var : Role → Int} {ls : List Label}
    (run : Run Sys.step Any (Sys.start c var) ls s) : ∃ a, Refines c n (∀ r, 0 < var r) s a := by
  obtain ⟨a, -, refines⟩ := refines_run started (fun _ _ _ _ _ _ _ _ _ => trivial) run
  exact ⟨a, refines⟩

theorem refines_lossless (started : c.Started n) {var : Role → Int} {ls : List Label}
    (run : Run Sys.step Lossless (Sys.start c var) ls s) :
    ∃ a, Run (Exchange.step c.bound) Exchange.Lossless (Exchange.start n) (ls.filterMap Label.action) a ∧
      Refines c n (∀ r, 0 < var r) s a :=
  refines_run started (fun _ _ _ _ _ _ action lossless _ => lossless_action action lossless) run

theorem refines_ordered (started : c.Started n) {var : Role → Int} {ls : List Label}
    (run : Run Sys.step Ordered (Sys.start c var) ls s) :
    ∃ a, Run (Exchange.step c.bound) Exchange.Ordered (Exchange.start n) (ls.filterMap Label.action) a ∧
      Refines c n (∀ r, 0 < var r) s a :=
  refines_run started (fun _ _ _ _ _ refines action ordered taken => ordered_action refines action ordered taken) run

/-! ### One measurement -/

def Config.single : Config where
  endian
    | .master => .little
    | .slave => .big
  measureNumber _ := 1
  address
    | .master => ⟨0x0100007f, 1⟩
    | .slave => ⟨0x0200007f, 2⟩
  apart := by decide

theorem started_single : Config.single.Started 1 :=
  ⟨by decide, by decide, by decide, by decide⟩

/-- One iteration of the sender of `r`, whose NIC sends the event at `tx` and the follow-up later. -/
def iteration (r : Role) (tv : Timeval) (tx : Timespec) : List Label :=
  [.event r tv ⟨0, 0⟩ tx, .loopback r, .loopback r, .poll r, .poll r,
    .followUp r ⟨0, 0⟩ ⟨0, 90⟩, .loopback r, .loopback r, .poll r, .poll r]

def reception (r : Role) (rx : Timespec) : Label :=
  .deliver r 0 .cleared [⟨solSocket, soTimestamping, 48, [⟨0, 0⟩, ⟨0, 0⟩, rx]⟩]

/-- The master sends at 5 and receives at 33; the slave receives at 9 and sends at 20, by a clock
`skew` ahead. -/
def measurement (tv : Timeval) (skew : BitVec 64) : List Label :=
  iteration .master tv ⟨0, 5⟩ ++ [reception .slave ⟨0, 9 + skew⟩, reception .slave ⟨0, 91 + skew⟩] ++
    iteration .slave tv ⟨0, 20 + skew⟩ ++ [.resume, reception .master ⟨0, 33⟩, reception .master ⟨0, 92⟩]

theorem run_measurement : ∃ s, Run Sys.step Ordered (Sys.start .single fun _ => 1) (measurement ⟨7, 0⟩ 0) s ∧
    ((s.host .master).loop.status, (s.host .slave).loop.status) = (.left, .left) :=
  run_of_exec Sys.step Ordered (Sys.start .single fun _ => 1) (measurement ⟨7, 0⟩ 0) _ _ (by decide +kernel)

end Mdelay
