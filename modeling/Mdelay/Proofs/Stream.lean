import Mdelay.Proofs.Losses
import Mdelay.Proofs.Misread
import Mdelay.Protocol.Line

/-!
# One step over TCP and over UDP

The hosts of TCP mode beside those of UDP mode, which differ in the address the slave answers to, and
the datagrams that carry the messages of the streams.
-/

namespace Mdelay.Tcp
open ByteOrder TwoStep Transition

variable {c : Config} {n : Nat} {positive : Prop} {s t : Sys c} {u v w : Mdelay.Sys c} {a b : Exchange Timespec}
  {r : Role}

/-! ### Hosts that differ in the address of the peer -/

/-- A call with the address that it is given over UDP. -/
def toward (addr : SockaddrIn) (x : Sender) : Sender := { x with dsa := addr }

structure HostAlike (c : Config) (r : Role) (h h' : Host (c.program r)) : Prop where
  status : h'.loop.status = h.loop.status
  var : h'.loop.var = h.loop.var
  meas : (c.program r).measurements h'.loop.st = (c.program r).measurements h.loop.st
  sender : h'.sender = h.sender.map (toward (c.address r.peer))
  got : h'.got = 0 ↔ h.got = 0
  errq : h'.errq = h.errq

variable {h h' : Host (c.program r)}

theorem HostAlike.alive (alike : HostAlike c r h h') : h'.alive = h.alive := by
  rw [Host.alive, Host.alive, alike.status, alike.sender]
  cases h.sender <;> rfl

theorem HostAlike.waits (alike : HostAlike c r h h') : h'.waits r = h.waits r := by
  rw [Host.waits, Host.waits, alike.alive, alike.status, alike.sender, Option.isNone_map]

theorem HostAlike.finished (alike : HostAlike c r h h') : h'.finished = h.finished := by
  rw [Host.finished, Host.finished, alike.status, alike.sender]
  cases h.sender <;> rfl

theorem sendEvent_toward (addr : SockaddrIn) (e : Endian) (tv : Timeval) (x : Sender) :
    (toward addr x).sendEvent e tv = Prod.map (toward addr) id (x.sendEvent e tv) := by
  obtain ⟨dsa, pkttype⟩ := x
  cases pkttype <;> rfl

theorem sendFollowUp_toward (addr : SockaddrIn) (e : Endian) (x : Sender) :
    (toward addr x).sendFollowUp e = Prod.map (toward addr) id (x.sendFollowUp e) := by
  obtain ⟨dsa, pkttype⟩ := x
  cases pkttype <;> rfl

theorem readErrq_toward (addr : SockaddrIn) (got : ErrqRead) (x : Sender) :
    (toward addr x).readErrq got = toward addr (x.readErrq got) := by
  have msg : (toward addr x).msg = x.msg := rfl
  have pc : (toward addr x).pc = x.pc := rfl
  unfold Sender.readErrq
  rw [pc]
  split
  · rfl
  · rfl
  · rw [msg]
    dsimp only
    split <;> rfl
  · rw [msg]
    dsimp only
    split <;> rfl
  · rfl
  · rfl
  · rfl

theorem afterRecv_alike {p : Program} {l l' : p.Loop} {got got' : Int} {st st' : p.State} (var : l'.var = l.var)
    (meas : p.measurements st' = p.measurements st) (some : got' = 0 ↔ got = 0) :
    (p.afterRecv l' got' st').status = (p.afterRecv l got st).status ∧
      (p.afterRecv l' got' st').var = (p.afterRecv l got st).var := by
  have same : got' ≠ 0 ∧ 0 < l'.var ∧ p.total st' < p.bound ↔ got ≠ 0 ∧ 0 < l.var ∧ p.total st < p.bound := by
    rw [Program.total, Program.total, var, meas, ne_eq, ne_eq, some]
  have test : loopTest got' l'.var (p.total st') p.bound = loopTest got l.var (p.total st) p.bound :=
    if_congr same rfl rfl
  simp only [Program.afterRecv, test, and_self]

theorem alike_setHost (alike : ∀ r, HostAlike c r (s.host r) (u.host r)) (new : HostAlike c r h h') (r' : Role) :
    HostAlike c r' ((s.hosts.setHost r h).host r') ((u.setHost r h').host r') := by
  by_cases same : r' = r
  · subst same
    rw [setHost_self, setHost_self]
    exact new
  · rw [setHost_of_ne same, setHost_of_ne same]
    exact alike r'

/-! ### What a program does by itself -/

theorem bytesFrom_cons (c : Config) (r : Role) (d : Datagram) (net : List Datagram) :
    bytesFrom c r (d :: net) = (if d.src = c.address r then d.bytes else []) ++ bytesFrom c r net := by
  by_cases here : d.src = c.address r <;> simp [bytesFrom, here]

theorem bytesFrom_append (c : Config) (r : Role) (xs ys : List Datagram) :
    bytesFrom c r (xs ++ ys) = bytesFrom c r xs ++ bytesFrom c r ys := by
  rw [bytesFrom, List.filter_append, List.flatMap_append]
  rfl

theorem bytesFrom_single (c : Config) (r : Role) (d d' : Datagram) (src : d.src = d'.src) (bytes : d.bytes = d'.bytes) :
    bytesFrom c r [d] = bytesFrom c r [d'] := by
  by_cases here : d.src = c.address r
  · have here' := src ▸ here
    simp [bytesFrom, here, here', bytes]
  · have other := src ▸ here
    simp [bytesFrom, here, other]

/-- What a move of one program does over TCP and what it does over UDP. -/
structure Moved (s : Sys c) (u w v : Mdelay.Sys c) : Prop where
  host : ∀ r, HostAlike c r (w.host r) (v.host r)
  state : ∀ r, (w.host r).loop.st = (s.host r).loop.st
  trace : w.trace = v.trace
  net : ∀ r, bytesFrom c r v.net = bytesFrom c r u.net ++ bytesFrom c r w.net

theorem moved_setHost (alike : ∀ r, HostAlike c r (s.host r) (u.host r)) (trace : s.trace = u.trace)
    (new : HostAlike c r h h') (state : h.loop.st = (s.host r).loop.st) :
    Moved s u (s.hosts.setHost r h) (u.setHost r h') where
  host := alike_setHost alike new
  state r' := by
    by_cases same : r' = r
    · subst same
      rw [setHost_self, state]
    · rw [setHost_of_ne same]
      rfl
  trace := trace
  net r' := (List.append_nil _).symm

theorem moved_sendto (alike : ∀ r, HostAlike c r (s.host r) (u.host r)) (trace : s.trace = u.trace) (sw nic : Timespec)
    (out : Sender × Option (List Byte)) :
    Moved s u (s.hosts.sendto r sw nic out) (u.sendto r sw nic (Prod.map (toward (c.address r.peer)) id out)) := by
  obtain ⟨x, bytes⟩ := out
  obtain ⟨status, var, meas, sender, got, errq⟩ := alike r
  cases bytes with
  | none => exact moved_setHost alike trace ⟨status, var, meas, rfl, got, errq⟩ rfl
  | some bytes =>
    have errq' : (u.host r).errq.sendto sw nic = (s.host r).errq.sendto sw nic := by rw [errq]
    have host : Moved s u
        (s.hosts.setHost r { s.host r with sender := some x, errq := (s.host r).errq.sendto sw nic })
        (u.setHost r
          { u.host r with sender := some (toward (c.address r.peer) x), errq := (u.host r).errq.sendto sw nic }) :=
      moved_setHost alike trace ⟨status, var, meas, rfl, got, errq'⟩ rfl
    refine ⟨host.host, host.state, ?_, fun r' => ?_⟩
    · exact congrArg (· ++ [Obs.of r true bytes nic]) trace
    · exact (bytesFrom_append ..).trans (congrArg _ (bytesFrom_single c r' _ _ rfl rfl))

theorem moved_of_step (alike : ∀ r, HostAlike c r (s.host r) (u.host r)) (trace : s.trace = u.trace)
    {l : Mdelay.Label} (taken : s.hosts.step l = some w) : Ordered u l ∧ ∃ v, u.step l = some v ∧ Moved s u w v := by
  cases l with
  | event r tv sw nic =>
    obtain ⟨x, calls, ⟨alive, pc⟩, rfl⟩ := step_event.mp taken
    have calls' := (alike r).sender
    rw [show (s.host r).sender = some x from calls, Option.map_some] at calls'
    refine ⟨trivial, _, step_event.mpr ⟨_, calls', ⟨(alike r).alive.trans alive, pc⟩, rfl⟩, ?_⟩
    rw [sendEvent_toward]
    exact moved_sendto alike trace sw nic _
  | followUp r sw nic =>
    obtain ⟨x, calls, ⟨alive, pc⟩, rfl⟩ := step_followUp.mp taken
    have calls' := (alike r).sender
    rw [show (s.host r).sender = some x from calls, Option.map_some] at calls'
    refine ⟨trivial, _, step_followUp.mpr ⟨_, calls', ⟨(alike r).alive.trans alive, pc⟩, rfl⟩, ?_⟩
    rw [sendFollowUp_toward]
    exact moved_sendto alike trace sw nic _
  | poll r =>
    obtain ⟨x, calls, ⟨alive, reads⟩, rfl⟩ := step_poll.mp taken
    have calls' := (alike r).sender
    rw [show (s.host r).sender = some x from calls, Option.map_some] at calls'
    refine ⟨trivial, _, step_poll.mpr ⟨_, calls', ⟨(alike r).alive.trans alive, reads⟩, rfl⟩, ?_⟩
    obtain ⟨status, var, meas, -, got, errq⟩ := alike r
    refine moved_setHost alike trace ⟨status, var, meas, ?_, got, ?_⟩ rfl
    · rw [readErrq_toward, errq]
      rfl
    · exact congrArg (fun q => q.recvmsg.2) errq
  | loopback r =>
    obtain ⟨q, looped, rfl⟩ := step_loopback.mp taken
    obtain ⟨status, var, meas, sender, got, errq⟩ := alike r
    have looped' : (u.host r).errq.loopback = some q := by
      rw [errq]
      exact looped
    exact ⟨trivial, _, step_loopback.mpr ⟨q, looped', rfl⟩,
      moved_setHost alike trace ⟨status, var, meas, sender, got, rfl⟩ rfl⟩
  | resume =>
    obtain ⟨x, calls, ⟨alive, pc⟩, rfl⟩ := step_resume.mp taken
    have calls' := (alike .slave).sender
    rw [show (s.host .slave).sender = some x from calls, Option.map_some] at calls'
    refine ⟨trivial, _, step_resume.mpr ⟨_, calls', ⟨(alike .slave).alive.trans alive, pc⟩, rfl⟩, ?_⟩
    obtain ⟨status, var, meas, -, got, errq⟩ := alike .slave
    have after := afterRecv_alike var meas got
    exact moved_setHost alike trace ⟨after.1, after.2, meas, rfl, got, errq⟩ rfl
  | deliver r i k cmsgs =>
    obtain ⟨d, nic, found, -⟩ := step_deliver.mp taken
    cases found
  | drop i =>
    obtain ⟨inside, -⟩ := step_drop.mp taken
    cases inside
  | dup i =>
    obtain ⟨d, found, -⟩ := step_dup.mp taken
    cases found

/-! ### What a read does -/

/-- Two ends of `do_recv` with the same measurements, the second with the address `addr` for the answer. -/
inductive OutcomeAlike {σ μ : Type} (meas : σ → μ) (addr : SockaddrIn) : DoRecv σ → DoRecv σ → Prop
  | returned {got got' : Int} {st st' : σ} (some : got' = 0 ↔ got = 0) (same : meas st' = meas st) :
      OutcomeAlike meas addr (.returned got st) (.returned got' st')
  | sending {got got' : Int} {st st' : σ} (some : got' = 0 ↔ got = 0) (same : meas st' = meas st) (x : Sender) :
      OutcomeAlike meas addr (.sending got st x) (.sending got' st' (toward addr x))
  | exited : OutcomeAlike meas addr .exited .exited
  | faulted : OutcomeAlike meas addr .faulted .faulted

theorem alike_receive (alike : HostAlike c r h h') {o o' : DoRecv (c.program r).State}
    (outcome : OutcomeAlike (c.program r).measurements (c.address r.peer) o o') :
    HostAlike c r (h.receive o) (h'.receive o') := by
  obtain ⟨status, var, meas, sender, got, errq⟩ := alike
  cases outcome with
  | returned some same =>
    have after := afterRecv_alike var same some
    exact ⟨after.1, after.2, same, sender, got, errq⟩
  | sending some same x => exact ⟨status, var, same, rfl, some, errq⟩
  | exited => exact ⟨rfl, var, meas, sender, got, errq⟩
  | faulted => exact ⟨rfl, var, meas, sender, got, errq⟩

theorem alike_written {σ μ : Type} {meas : σ → μ} {addr : SockaddrIn} {got got' : Int} (some : got' = 0 ↔ got = 0)
    {o o' : Option σ} (same : o'.map meas = o.map meas) :
    OutcomeAlike meas addr (.written got o) (.written got' o') := by
  cases o with
  | none =>
    rw [Option.map_none, Option.map_eq_none_iff] at same
    rw [same]
    exact .faulted
  | some st =>
    rw [Option.map_some, Option.map_eq_some_iff] at same
    obtain ⟨st', rfl, same⟩ := same
    exact .returned some same

theorem got_zero_iff {bytes bytes' : List Byte} (src src' : SockaddrIn) (cmsgs : List Cmsghdr)
    (full : 40 ≤ bytes.length) (full' : 40 ≤ bytes'.length) :
    (Recvmsg.message bytes' src' cmsgs).got = 0 ↔ (Recvmsg.message bytes src cmsgs).got = 0 := by
  have positive := got_pos bytes src cmsgs (by rintro rfl; cases full)
  have positive' := got_pos bytes' src' cmsgs (by rintro rfl; cases full')
  omega

/-- Of what is read only the header matters. -/
theorem outcome_master (e : Endian) (k : Stack) {bytes bytes' : List Byte} (src src' : SockaddrIn)
    (cmsgs : List Cmsghdr) (full : 40 ≤ bytes.length) (full' : 40 ≤ bytes'.length)
    (same : decode .big bytes = decode .big bytes') (addr : SockaddrIn) (m : Measurements Master.entries) :
    OutcomeAlike id addr (Master.doRecv e k (.message bytes src cmsgs) m)
      (Master.doRecv e k (.message bytes' src' cmsgs) m) := by
  have some := got_zero_iff src src' cmsgs full full'
  rw [Master.doRecv_message e k src cmsgs full, Master.doRecv_message e k src' cmsgs full', same]
  cases PktType.ofCode (decode .big bytes').type with
  | none => exact .exited
  | some type =>
    cases type with
    | delayReq | delayReqFollowUp => exact .exited
    | delayRespFollowUp => exact alike_written some rfl
    | delayResp =>
      cases nicTime cmsgs with
      | none => exact .faulted
      | some ts => exact alike_written some rfl

/-- The slave answers to the address it has recorded, which matters to no connection. -/
theorem outcome_slave (e : Endian) (k : Stack) {bytes bytes' : List Byte} (src src' : SockaddrIn)
    (cmsgs : List Cmsghdr) (full : 40 ≤ bytes.length) (full' : 40 ≤ bytes'.length)
    (same : decode .big bytes = decode .big bytes') {cap : Nat} {st st' : Slave.State cap} (ready : st.Ready)
    (peer : st'.Peer e src') (meas : st'.meas = st.meas) :
    OutcomeAlike Slave.State.meas src' (Slave.doRecv e k (.message bytes src cmsgs) st)
      (Slave.doRecv e k (.message bytes' src' cmsgs) st') := by
  have some := got_zero_iff src src' cmsgs full full'
  obtain ⟨st₁, host, recorded, meas₁, -⟩ := Slave.recordPeer_of_ready e ready src
  obtain ⟨st₂, recorded', meas₂, -⟩ := Slave.recordPeer_of_peer e peer
  have equal : st₂.meas = st₁.meas := meas₂.trans (meas.trans meas₁.symm)
  rw [Slave.doRecv_message e k src cmsgs full, Slave.doRecv_message e k src' cmsgs full', same, recorded, recorded']
  dsimp only
  cases PktType.ofCode (decode .big bytes').type with
  | none => exact .exited
  | some type =>
    cases type with
    | delayResp | delayRespFollowUp => exact .exited
    | delayReq =>
      cases nicTime cmsgs with
      | none => exact .faulted
      | some ts =>
        refine alike_written some ?_
        rw [equal, Option.map_map, Option.map_map]
        rfl
    | delayReqFollowUp =>
      dsimp only
      rw [equal]
      cases st₁.meas.count.setSent (decode .big bytes').seq.toNat (decode .big bytes').t2 with
      | none => exact .faulted
      | some m =>
        have same : ({ st₂ with meas := m } : Slave.State cap).meas = ({ st₁ with meas := m } : Slave.State cap).meas := rfl
        exact .sending some same (sendUdpPacketsTimestamp host .delayResp (payloadSize - 10) 1 _)

/-! ### The datagrams on their way -/

def Formed (c : Config) (net : List Datagram) : Prop :=
  ∀ d ∈ net, ∃ r : Role, d.src = c.address r ∧ ∃ m : r.Written, m.bytes = d.bytes

/-- A state of UDP mode whose network has kept its order, with the exchange that it refines. -/
structure Link (c : Config) (n : Nat) (positive : Prop) (u : Mdelay.Sys c) (a : Exchange Timespec) : Prop where
  refines : Refines c n positive u a
  tidy : Exchange.Tidy n c.bound a
  lined : Exchange.Lined a
  formed : Formed c u.net

theorem formed_sendto (formed : Formed c u.net) {sw nic : Timespec} {out : Sender × Option (List Byte)}
    (written : ∀ bytes ∈ out.2, ∃ m : r.Written, m.bytes = bytes) : Formed c (u.sendto r sw nic out).net := by
  obtain ⟨x, bytes⟩ := out
  cases bytes with
  | none => exact formed
  | some bytes =>
    intro d member
    rcases List.mem_append.mp member with old | new
    · exact formed d old
    · obtain rfl := List.mem_singleton.mp new
      exact ⟨r, rfl, written bytes rfl⟩

theorem formed_step (refines : Refines c n positive u a) (formed : Formed c u.net) {l : Mdelay.Label}
    (ordered : Ordered u l) (taken : u.step l = some v) : Formed c v.net := by
  cases l with
  | event r tv sw nic =>
    obtain ⟨x, calls, -, rfl⟩ := step_event.mp taken
    have sends := (refines.host r).sends
    rw [calls] at sends
    exact formed_sendto formed fun bytes sent =>
      ⟨⟨_, bytes, _, x, sends.kind, sends.size, Or.inl ⟨tv, rfl, sent⟩⟩, rfl⟩
  | followUp r sw nic =>
    obtain ⟨x, calls, ⟨-, pc⟩, rfl⟩ := step_followUp.mp taken
    have sends := (refines.host r).sends
    rw [calls] at sends
    have stands := sends.stands
    rw [Sender.Stands, pc] at stands
    obtain ⟨-, -, user, -, -, held⟩ := stands
    exact formed_sendto formed fun bytes sent =>
      ⟨⟨_, bytes, _, x, sends.kind, sends.size, Or.inr ⟨x.currentSeq, user, held, rfl, sent⟩⟩, rfl⟩
  | poll r =>
    obtain ⟨x, -, -, rfl⟩ := step_poll.mp taken
    exact formed
  | loopback r =>
    obtain ⟨q, -, rfl⟩ := step_loopback.mp taken
    exact formed
  | resume =>
    obtain ⟨x, -, -, rfl⟩ := step_resume.mp taken
    exact formed
  | deliver r i k cmsgs =>
    obtain ⟨d, nic, -, -, -, rfl⟩ := step_deliver.mp taken
    exact fun d member => formed d (List.mem_of_mem_eraseIdx member)
  | drop | dup => exact ordered.elim

theorem link_start (started : c.Started n) (var : Role → Int) :
    Link c n (∀ r, 0 < var r) (Mdelay.Sys.start c var) (Exchange.start n) :=
  ⟨refines_start started var, Exchange.tidy_start n c.bound, Exchange.lined_start n, List.forall_mem_nil _⟩

theorem link_step (started : c.Started n) (link : Link c n positive u a) {l : Mdelay.Label} (ordered : Ordered u l)
    (taken : u.step l = some v) : ∃ b, Answers c a l b ∧ Link c n positive v b := by
  obtain ⟨refines, tidy, lined, formed⟩ := link
  obtain ⟨b, answers, refines'⟩ := refines_answer started refines taken
  refine ⟨b, answers, refines', ?_, ?_, formed_step refines formed ordered taken⟩
  all_goals
    unfold Answers at answers
    cases action : l.action with
    | none =>
      rw [action] at answers
      rw [answers]
      assumption
    | some k =>
      rw [action] at answers
      have permitted := ordered_action refines action ordered taken
      first
        | exact Exchange.tidy_step tidy permitted answers
        | exact Exchange.lined_step tidy.traced.orderly tidy.balanced lined permitted.1 answers

/-- The messages of `r` are on their way one behind the other. -/
theorem messages_of_formed {net : List Datagram} (formed : Formed c net) (r : Role) :
    ∃ ms : List r.Written, bytesFrom c r net = (ms.map (·.bytes)).flatten := by
  induction net with
  | nil => exact ⟨[], rfl⟩
  | cons d net ih =>
    obtain ⟨ms, rest⟩ := ih fun e member => formed e (List.mem_cons_of_mem _ member)
    by_cases here : d.src = c.address r
    · obtain ⟨r', src, m, bytes⟩ := formed d List.mem_cons_self
      obtain rfl := address_inj (here.symm.trans src)
      refine ⟨m :: ms, ?_⟩
      rw [bytesFrom_cons, if_pos here, List.map_cons, List.flatten_cons, bytes, rest]
    · refine ⟨ms, ?_⟩
      rw [bytesFrom_cons, if_neg here, rest]
      rfl

/-- The datagram of `r` that was sent first. -/
theorem first_of_bytes {net : List Datagram} (some : bytesFrom c r net ≠ []) :
    ∃ i d, net[i]? = Option.some d ∧ d.src = c.address r ∧ (∀ j < i, ∀ e ∈ net[j]?, e.src ≠ c.address r) ∧
      bytesFrom c r net = d.bytes ++ bytesFrom c r (net.eraseIdx i) ∧
      bytesFrom c r.peer (net.eraseIdx i) = bytesFrom c r.peer net := by
  induction net with
  | nil => exact absurd rfl some
  | cons d net ih =>
    by_cases here : d.src = c.address r
    · have other : d.src ≠ c.address r.peer := by
        rw [here]
        intro same
        have := address_inj same
        cases r <;> cases this
      refine ⟨0, d, rfl, here, fun j before => absurd before (Nat.not_lt_zero j), ?_, ?_⟩
      · rw [bytesFrom_cons, if_pos here]
        rfl
      · rw [bytesFrom_cons, if_neg other]
        rfl
    · rw [bytesFrom_cons, if_neg here, List.nil_append] at some
      obtain ⟨i, e, found, src, first, split, rest⟩ := ih some
      refine ⟨i + 1, e, found, src, ?_, ?_, ?_⟩
      · intro j before e' found'
        cases j with
        | zero =>
          obtain rfl := Option.some.inj found'
          exact here
        | succ j => exact first j (Nat.lt_of_succ_lt_succ before) e' found'
      · rw [List.eraseIdx_cons_succ, bytesFrom_cons, bytesFrom_cons, if_neg here, split]
        rfl
      · rw [List.eraseIdx_cons_succ, bytesFrom_cons, bytesFrom_cons, rest]

/-- The first datagram for a host overtakes nothing. -/
theorem ordered_of_first (started : c.Started n) (link : Link c n positive u a) {i : Nat} {d : Datagram}
    (found : u.net[i]? = some d) (src : d.src = c.address r.peer)
    (first : ∀ j < i, ∀ e ∈ u.net[j]?, e.src ≠ c.address r.peer) (k : Stack) (cmsgs : List Cmsghdr) :
    d.dst = c.address r ∧ Ordered u (.deliver r i k cmsgs) := by
  obtain ⟨m, message, carries⟩ := Related.getElem? link.refines.net found
  have dest : playedBy m.dest = r := by
    have same := address_inj (src.symm.trans carries.src)
    rw [← peer_peer r, same, peer_peer]
  have ahead : ∀ j < i, ∀ m' ∈ a.net[j]?, m'.dest ≠ m.dest := by
    intro j before m' message' same
    obtain ⟨d', datagram, carries'⟩ := Related.getElem?_right link.refines.net message'
    have away := first j before d' datagram
    rw [carries'.src, same, dest] at away
    exact away rfl
  refine ⟨dest ▸ carries.dst, ?_⟩
  rintro ⟨e, datagram, followUp, e', member, dst, event, same⟩
  obtain rfl : d = e := Option.some.inj (found.symm.trans datagram)
  obtain ⟨m', member', carries'⟩ := Related.mem_left link.refines.net member
  obtain ⟨type, seq⟩ := decode_carried carries
  obtain ⟨type', seq'⟩ := decode_carried carries'
  have dest' : playedBy m'.dest = r := address_inj (carries'.dst.symm.trans dst)
  rw [dest, followUp, followUp_code] at type
  rw [dest', event, event_code] at type'
  have side : m'.dest = m.dest := by rw [← side_playedBy m'.dest, dest', ← dest, side_playedBy]
  have unstamped : m'.stamp = none := by
    have plain : false = m'.stamp.isSome := code_inj type'
    cases stamp : m'.stamp with
    | none => rfl
    | some t =>
      rw [stamp] at plain
      cases plain
  refine Exchange.apart_of_lined link.lined message ahead (code_inj type).symm m' member' side unstamped ?_
  have small {m : Message Timespec} (member : m ∈ a.net) : m.seq < 2 ^ 32 := by
    have inside := link.tidy.traced.numbered.net m member
    have entries : n ≤ 100 := started.entries
    omega
  rw [← toNat_seq (small member'), ← seq', same, seq, toNat_seq (small (List.mem_of_getElem? message))]

end Mdelay.Tcp
