import Mdelay.Proofs.Attribution
import Mdelay.Proofs.Refinement

/-!
# What the follow-ups of the master carry

Whatever the arguments of the programs and whatever the network does, every copy of a
DELAY_REQ_FOLLOW_UP that reaches the slave carries the only time at which the NIC of the master has
sent the DELAY_REQ of that number.
-/

namespace Mdelay
open ByteOrder Transition

variable {c : Config} {s t : Sys c} {r : Role} {l : Label} {todo : List Nat} {stage : Option Timespec}

/-! ### The requests of the master -/

/-- The NIC of the master sent a DELAY_REQ of the number at `u`. -/
def Sys.Requested (s : Sys c) (seq : BitVec 32) (u : Timespec) : Prop :=
  ⟨.master, true, PktType.delayReq.code, seq, u⟩ ∈ s.trace

/-- The call of `send_packets` has still to follow up the numbers `todo`. -/
def Sys.SendsPackets (s : Sys c) (todo : List Nat) (stage : Option Timespec) : Prop :=
  ∃ x, (s.host .master).sender = some x ∧
    Calling .master (c.endian .master) (c.address .slave) x (s.host .master).errq todo stage

/-- Of the numbers still to be followed up only the first can have been requested. -/
structure Sys.Asks (s : Sys c) (todo : List Nat) (stage : Option Timespec) : Prop where
  calls : s.SendsPackets todo stage
  distinct : todo.Nodup
  begun : ∀ seq u, seq.toNat ∈ todo → (s.Requested seq u ↔ todo.head? = some seq.toNat ∧ stage = some u)
  once : ∀ seq u u', s.Requested seq u → s.Requested seq u' → u = u'

theorem requested_snoc {o : Obs} {seq : BitVec 32} {u : Timespec} (trace : t.trace = s.trace ++ [o]) :
    t.Requested seq u ↔ s.Requested seq u ∨ o = ⟨.master, true, PktType.delayReq.code, seq, u⟩ := by
  unfold Sys.Requested
  rw [trace, List.mem_append, List.mem_singleton, eq_comm (a := o)]

theorem trace_step (taken : s.step l = some t) : s.trace <+: t.trace := by
  have sends (r : Role) (sw nic : Timespec) (out : Sender × Option (List Byte)) :
      s.trace <+: (s.sendto r sw nic out).trace := by
    obtain ⟨x', bytes⟩ := out
    cases bytes with
    | none => exact List.prefix_rfl
    | some bytes => exact List.prefix_append _ _
  cases l with
  | event r tv sw nic =>
    obtain ⟨x, -, -, rfl⟩ := step_event.mp taken
    exact sends r sw nic _
  | followUp r sw nic =>
    obtain ⟨x, -, -, rfl⟩ := step_followUp.mp taken
    exact sends r sw nic _
  | poll r =>
    obtain ⟨x, -, -, rfl⟩ := step_poll.mp taken
    exact List.prefix_rfl
  | loopback r =>
    obtain ⟨q, -, rfl⟩ := step_loopback.mp taken
    exact List.prefix_rfl
  | resume =>
    obtain ⟨x, -, -, rfl⟩ := step_resume.mp taken
    exact List.prefix_rfl
  | deliver r i k cmsgs =>
    obtain ⟨d, nic, -, -, -, rfl⟩ := step_deliver.mp taken
    exact List.prefix_append _ _
  | drop i =>
    obtain ⟨-, rfl⟩ := step_drop.mp taken
    exact List.prefix_rfl
  | dup i =>
    obtain ⟨d, -, rfl⟩ := step_dup.mp taken
    exact List.prefix_rfl

theorem trace_run {ls : List Label} (run : Run Sys.step Any s ls t) : s.trace <+: t.trace :=
  run_invariant (I := fun u : Sys c => s.trace <+: u.trace)
    (fun _ _ _ before _ taken => before.trans (trace_step taken)) List.prefix_rfl run

theorem asks_congr (asks : s.Asks todo stage) (sender : (t.host .master).sender = (s.host .master).sender)
    (errq : (t.host .master).errq = (s.host .master).errq)
    (requested : ∀ seq u, t.Requested seq u ↔ s.Requested seq u) : t.Asks todo stage := by
  refine ⟨?_, asks.distinct, fun seq u member => (requested seq u).trans (asks.begun seq u member), ?_⟩
  · unfold Sys.SendsPackets
    rw [sender, errq]
    exact asks.calls
  · intro seq u u' first second
    exact asks.once seq u u' ((requested seq u).mp first) ((requested seq u').mp second)

theorem numbers_nodup (x : Sender) (small : x.n < 2 ^ 32) (i : Nat) : (x.numbers i).Nodup := by
  unfold Sender.numbers
  refine List.Nodup.map_on ?_ List.nodup_range'
  intro j member j' member' same
  obtain ⟨above, below⟩ := List.mem_range'_1.mp member
  obtain ⟨above', below'⟩ := List.mem_range'_1.mp member'
  have numbers : BitVec.ofNat 32 j = BitVec.ofNat 32 j' := BitVec.add_right_inj _ |>.mp (BitVec.eq_of_toNat_eq same)
  have word := congrArg BitVec.toNat numbers
  rw [BitVec.toNat_ofNat, BitVec.toNat_ofNat] at word
  omega

theorem asks_start (c : Config) (var : Role → Int) : ∃ todo, (Sys.start c var).Asks todo none := by
  let x := Master.sendPackets (c.address .slave) (c.measureNumber .master)
  have calling := calling_start .master (c.endian .master) (c.address .slave) (c.measureNumber .master).toInt 0
  refine ⟨x.numbers 0, ⟨x, rfl, calling⟩, numbers_nodup x ?_ 0, ?_, ?_⟩
  · have bounded := BitVec.toInt_lt (x := c.measureNumber .master)
    change (c.measureNumber .master).toInt < 2 ^ 32
    omega
  · intro seq u _
    constructor
    · intro requested
      cases requested
    · rintro ⟨-, staged⟩
      cases staged
  · intro seq u u' requested
    cases requested

/-! ### What a step does to them -/

theorem asks_setHost_slave (asks : s.Asks todo stage) (h : Host (c.program .slave)) {net : List Datagram}
    {trace : List Obs}
    (requested : ∀ seq u, ⟨.master, true, PktType.delayReq.code, seq, u⟩ ∈ trace ↔ s.Requested seq u) :
    ({ s.setHost .slave h with net := net, trace := trace } : Sys c).Asks todo stage := by
  have other : (s.setHost .slave h).host .master = s.host .master := setHost_of_ne (by decide) h
  exact asks_congr asks (congrArg Host.sender other) (congrArg Host.errq other) requested

theorem asks_sendto_slave (asks : s.Asks todo stage) (sw nic : Timespec) (out : Sender × Option (List Byte)) :
    (s.sendto .slave sw nic out).Asks todo stage := by
  obtain ⟨x', bytes⟩ := out
  cases bytes with
  | none => exact asks_setHost_slave asks _ fun seq u => Iff.rfl
  | some bytes =>
    refine asks_setHost_slave asks _ fun seq u => ?_
    rw [List.mem_append, List.mem_singleton]
    exact or_iff_left fun same => by cases same

theorem sendsPackets_setHost {h : Host (c.program .master)} {x : Sender} (sender : h.sender = some x)
    (calling : Calling .master (c.endian .master) (c.address .slave) x h.errq todo stage) {net : List Datagram}
    {trace : List Obs} :
    ({ s.setHost .master h with net := net, trace := trace } : Sys c).SendsPackets todo stage := by
  unfold Sys.SendsPackets
  dsimp only
  rw [setHost_self]
  exact ⟨x, sender, calling⟩

theorem fresh_of_idle (asks : s.Asks todo none) {seq : BitVec 32} (member : seq.toNat ∈ todo) (u : Timespec) :
    ¬ s.Requested seq u := by
  intro requested
  obtain ⟨-, staged⟩ := (asks.begun seq u member).mp requested
  cases staged

/-- The NIC sends the DELAY_REQ of the first number. -/
theorem asks_request {k : Nat} {rest : List Nat} (asks : s.Asks (k :: rest) none) (small : k < 2 ^ 32) {nic : Timespec}
    (calls : t.SendsPackets (k :: rest) (some nic))
    (requested : ∀ seq u, t.Requested seq u ↔ s.Requested seq u ∨ seq = BitVec.ofNat 32 k ∧ u = nic) :
    t.Asks (k :: rest) (some nic) := by
  have number : (BitVec.ofNat 32 k).toNat = k := toNat_seq small
  refine ⟨calls, asks.distinct, fun seq u member => ?_, fun seq u u' first second => ?_⟩
  · rw [requested]
    constructor
    · rintro (old | ⟨rfl, rfl⟩)
      · exact absurd old (fresh_of_idle asks member u)
      · exact ⟨by rw [number]; rfl, rfl⟩
    · rintro ⟨first, staged⟩
      obtain rfl : k = seq.toNat := Option.some.inj first
      exact Or.inr ⟨by rw [BitVec.ofNat_toNat, BitVec.setWidth_eq], (Option.some.inj staged).symm⟩
  · have head (u : Timespec) : ¬ s.Requested (BitVec.ofNat 32 k) u :=
      fresh_of_idle asks (by rw [number]; exact List.mem_cons_self) u
    rcases (requested seq u).mp first with old | ⟨rfl, rfl⟩
    · rcases (requested seq u').mp second with old' | ⟨rfl, -⟩
      · exact asks.once seq u u' old old'
      · exact absurd old (head u)
    · rcases (requested _ u').mp second with old' | ⟨-, rfl⟩
      · exact absurd old' (head u')
      · rfl

theorem asks_event (asks : s.Asks todo stage) {tv : Timeval} {sw nic : Timespec}
    (taken : s.step (.event r tv sw nic) = some t) : ∃ todo stage, t.Asks todo stage := by
  obtain ⟨x, sends, guard, rfl⟩ := step_event.mp taken
  cases r with
  | slave => exact ⟨todo, stage, asks_sendto_slave asks sw nic _⟩
  | master =>
    obtain ⟨x₀, sends₀, calling⟩ := asks.calls
    obtain rfl : x = x₀ := Option.some.inj (sends.symm.trans sends₀)
    obtain ⟨k, rest, x', rfl, rfl, small, sent, calling'⟩ := calling_event calling guard.2 tv sw nic
    rw [sent]
    refine ⟨k :: rest, some nic, asks_request asks small (sendsPackets_setHost rfl calling') fun seq u => ?_⟩
    rw [requested_snoc (s := s) rfl, Obs.of, decode_message, Obs.mk.injEq]
    simp [eq_comm, Role.code]

theorem asks_followUp (asks : s.Asks todo stage) {sw nic : Timespec}
    (taken : s.step (.followUp r sw nic) = some t) : ∃ todo stage, t.Asks todo stage := by
  obtain ⟨x, sends, guard, rfl⟩ := step_followUp.mp taken
  cases r with
  | slave => exact ⟨todo, stage, asks_sendto_slave asks sw nic _⟩
  | master =>
    obtain ⟨⟨x₀, sends₀, calling⟩, distinct, begun, once⟩ := asks
    obtain rfl : x = x₀ := Option.some.inj (sends.symm.trans sends₀)
    obtain ⟨k, rest, u, user, x', rfl, rfl, small, sent, calling'⟩ := calling_followUp calling guard.2 sw nic
    rw [sent]
    have requested (seq : BitVec 32) (v : Timespec) :
        (s.sendto .master sw nic (x', some ((Role.master.followUpHeader (BitVec.ofNat 32 k) user u.nanos).message
          Role.master.pktsize Role.master.followUpFill))).Requested seq v ↔ s.Requested seq v := by
      rw [requested_snoc (s := s) rfl, Obs.of, decode_message]
      exact or_iff_left fun same => absurd (Obs.mk.inj same).2.2.1 (show PktType.delayReqFollowUp.code ≠ _ by decide)
    refine ⟨rest, none, sendsPackets_setHost rfl calling', distinct.of_cons, fun seq v member => ?_, fun seq v v' => ?_⟩
    · rw [requested, begun seq v (List.mem_cons_of_mem k member)]
      constructor
      · rintro ⟨first, -⟩
        obtain rfl : k = seq.toNat := Option.some.inj first
        exact absurd member (List.nodup_cons.mp distinct).1
      · rintro ⟨-, staged⟩
        cases staged
    · rw [requested, requested]
      exact once seq v v'

theorem asks_poll (asks : s.Asks todo stage) (taken : s.step (.poll r) = some t) : t.Asks todo stage := by
  obtain ⟨x, sends, guard, rfl⟩ := step_poll.mp taken
  cases r with
  | slave => exact asks_setHost_slave asks _ fun seq u => Iff.rfl
  | master =>
    obtain ⟨⟨x₀, sends₀, calling⟩, distinct, begun, once⟩ := asks
    obtain rfl : x = x₀ := Option.some.inj (sends.symm.trans sends₀)
    exact ⟨sendsPackets_setHost rfl (calling_poll calling guard.2), distinct, begun, once⟩

theorem asks_loopback (asks : s.Asks todo stage) (taken : s.step (.loopback r) = some t) : t.Asks todo stage := by
  obtain ⟨q, looped, rfl⟩ := step_loopback.mp taken
  cases r with
  | slave => exact asks_setHost_slave asks _ fun seq u => Iff.rfl
  | master =>
    obtain ⟨⟨x, sends, calling⟩, distinct, begun, once⟩ := asks
    exact ⟨sendsPackets_setHost (h := { s.host .master with errq := q }) sends (calling_loopback calling looped),
      distinct, begun, once⟩

theorem receive_errq {p : Program} (h : Host p) (outcome : DoRecv p.State) : (h.receive outcome).errq = h.errq := by
  cases outcome <;> rfl

theorem receive_sender {p : Program} (h : Host p) (outcome : DoRecv p.State) :
    (h.receive outcome).sender = outcome.call.or h.sender := by
  cases outcome <;> rfl

theorem asks_deliver (asks : s.Asks todo stage) {i : Nat} {k : Stack} {cmsgs : List Cmsghdr}
    (taken : s.step (.deliver r i k cmsgs) = some t) : t.Asks todo stage := by
  obtain ⟨d, nic, -, -, -, rfl⟩ := step_deliver.mp taken
  have requested (seq : BitVec 32) (u : Timespec) :
      ⟨.master, true, PktType.delayReq.code, seq, u⟩ ∈ s.trace ++ [Obs.of r false d.bytes nic] ↔ s.Requested seq u := by
    rw [List.mem_append, List.mem_singleton]
    exact or_iff_left fun same => absurd (Obs.mk.inj same).2.1 (by decide)
  cases r with
  | slave => exact asks_setHost_slave asks _ requested
  | master =>
    have calls := Master.call_doRecv (c.endian .master) k (.message d.bytes d.src cmsgs) (s.host .master).loop.st
    refine asks_congr asks ?_ ?_ requested
    · refine (congrArg Host.sender (setHost_self ..)).trans ((receive_sender _ _).trans ?_)
      exact congrArg (Option.or · (s.host .master).sender) calls
    · exact (congrArg Host.errq (setHost_self ..)).trans (receive_errq _ _)

theorem asks_step (asks : s.Asks todo stage) (taken : s.step l = some t) : ∃ todo stage, t.Asks todo stage := by
  cases l with
  | event r tv sw nic => exact asks_event asks taken
  | followUp r sw nic => exact asks_followUp asks taken
  | poll r => exact ⟨todo, stage, asks_poll asks taken⟩
  | loopback r => exact ⟨todo, stage, asks_loopback asks taken⟩
  | resume =>
    obtain ⟨x, -, -, rfl⟩ := step_resume.mp taken
    exact ⟨todo, stage, asks_setHost_slave asks _ fun seq u => Iff.rfl⟩
  | deliver r i k cmsgs => exact ⟨todo, stage, asks_deliver asks taken⟩
  | drop i =>
    obtain ⟨-, rfl⟩ := step_drop.mp taken
    exact ⟨todo, stage, asks_congr asks rfl rfl fun seq u => Iff.rfl⟩
  | dup i =>
    obtain ⟨d, -, rfl⟩ := step_dup.mp taken
    exact ⟨todo, stage, asks_congr asks rfl rfl fun seq u => Iff.rfl⟩

/-! ### What reaches the slave -/

/-- A datagram with a whole header, which the master sent if the slave is to receive it. -/
def Sys.Carried (s : Sys c) (d : Datagram) : Prop :=
  40 ≤ d.bytes.length ∧ (d.dst = c.address .slave → d.src = c.address .master ∧
    ((decode .big d.bytes).type = PktType.delayReqFollowUp.code →
      ∃ u, s.Requested (decode .big d.bytes).seq u ∧ (decode .big d.bytes).t2 = u.nanos))

/-- The slave knows the master alone, and its loop runs while it sends. -/
structure Sys.Sound (s : Sys c) : Prop where
  net : ∀ d ∈ s.net, s.Carried d
  answers : ∀ x, (s.host .slave).sender = some x → x.dsa = c.address .master ∧ (s.host .slave).loop.status = .running
  peer : Slave.State.Peer (c.endian .slave) (c.address .master) (s.host .slave).loop.st

theorem sound_start (c : Config) (var : Role → Int) : (Sys.start c var).Sound := by
  refine ⟨fun d member => ?_, fun x sends => ?_, fun counted => absurd rfl counted⟩
  · cases member
  · cases sends

theorem carried_mono (later : s.trace <+: t.trace) {d : Datagram} (carried : s.Carried d) : t.Carried d := by
  obtain ⟨whole, reaches⟩ := carried
  refine ⟨whole, fun dst => ?_⟩
  obtain ⟨src, stamp⟩ := reaches dst
  refine ⟨src, fun type => ?_⟩
  obtain ⟨u, requested, time⟩ := stamp type
  exact ⟨u, later.subset requested, time⟩

theorem length_transmit (e : Endian) (x : Sender) (h : Mdelayhdr) (fill : Byte) (pc : SendPc) {bytes : List Byte}
    (sent : (x.transmit e h fill pc).2 = some bytes) : 40 ≤ bytes.length := by
  obtain rfl := Option.some.inj sent
  rw [memcpy, List.length_append, Mdelayhdr.length_bytes]
  omega

theorem length_sendEvent {e : Endian} {tv : Timeval} {x : Sender} {bytes : List Byte}
    (sent : (x.sendEvent e tv).2 = some bytes) : 40 ≤ bytes.length := by
  unfold Sender.sendEvent at sent
  dsimp only at sent
  split at sent
  · exact length_transmit _ _ _ _ _ sent
  · exact length_transmit _ _ _ _ _ sent
  · cases sent

theorem length_sendFollowUp {e : Endian} {x : Sender} {bytes : List Byte}
    (sent : (x.sendFollowUp e).2 = some bytes) : 40 ≤ bytes.length := by
  unfold Sender.sendFollowUp at sent
  dsimp only at sent
  split at sent
  · exact length_transmit _ _ _ _ _ sent
  · exact length_transmit _ _ _ _ _ sent
  · cases sent

theorem Slave.dsa_of_call {cap : Nat} {e : Endian} {addr : SockaddrIn} {st : Slave.State cap} (peer : st.Peer e addr)
    {k : Stack} {bytes : List Byte} {cmsgs : List Cmsghdr} {x : Sender}
    (calls : (Slave.doRecv e k (.message bytes addr cmsgs) st).call = some x) : x.dsa = addr := by
  obtain ⟨u, host, recorded, -, rfl⟩ := Slave.of_call calls
  obtain ⟨u', recorded', -⟩ := Slave.recordPeer_of_peer e peer
  exact (Prod.mk.inj (Option.some.inj (recorded.symm.trans recorded'))).2

theorem Slave.peer_of_outcome {cap : Nat} {e : Endian} {addr : SockaddrIn} {st st' : Slave.State cap}
    (peer : st.Peer e addr) {k : Stack} {bytes : List Byte} {cmsgs : List Cmsghdr} {got : Int}
    (outcome : (Slave.doRecv e k (.message bytes addr cmsgs) st).outcome = some (got, st')) : st'.Peer e addr := by
  rcases Slave.of_outcome outcome with ⟨-, rfl⟩ | ⟨u, host, m, recorded, rfl, -⟩
  · exact peer
  · obtain ⟨u', recorded', -, peer'⟩ := Slave.recordPeer_of_peer e peer
    obtain ⟨rfl, -⟩ := Prod.mk.inj (Option.some.inj (recorded.symm.trans recorded'))
    exact fun _ => peer'

/-! ### What a step does to it -/

theorem sound_setHost_master (sound : s.Sound) (h : Host (c.program .master)) {net : List Datagram} {trace : List Obs}
    (carried : ∀ d ∈ net, ({ s.setHost .master h with net := net, trace := trace } : Sys c).Carried d) :
    ({ s.setHost .master h with net := net, trace := trace } : Sys c).Sound := by
  have other : (s.setHost .master h).host .slave = s.host .slave := setHost_of_ne (by decide) h
  refine ⟨carried, ?_, ?_⟩
  · dsimp only
    rw [other]
    exact sound.answers
  · dsimp only
    rw [other]
    exact sound.peer

theorem sound_setHost_slave {h : Host (c.program .slave)} {net : List Datagram} {trace : List Obs}
    (carried : ∀ d ∈ net, ({ s.setHost .slave h with net := net, trace := trace } : Sys c).Carried d)
    (answers : ∀ x, h.sender = some x → x.dsa = c.address .master ∧ h.loop.status = .running)
    (peer : Slave.State.Peer (c.endian .slave) (c.address .master) h.loop.st) :
    ({ s.setHost .slave h with net := net, trace := trace } : Sys c).Sound := by
  refine ⟨carried, ?_, ?_⟩
  · dsimp only
    rw [setHost_self]
    exact answers
  · dsimp only
    rw [setHost_self]
    exact peer

/-- A host goes on with its call, or stays without one. -/
theorem sound_setHost (sound : s.Sound) {h : Host (c.program r)} (loop : h.loop = (s.host r).loop)
    (sends : ∀ x, h.sender = some x → ∃ x', (s.host r).sender = some x' ∧ x.dsa = x'.dsa) {net : List Datagram}
    {trace : List Obs} (carried : ∀ d ∈ net, ({ s.setHost r h with net := net, trace := trace } : Sys c).Carried d) :
    ({ s.setHost r h with net := net, trace := trace } : Sys c).Sound := by
  cases r with
  | master => exact sound_setHost_master sound h carried
  | slave =>
    refine sound_setHost_slave carried (fun x calls => ?_) ?_
    · obtain ⟨x', calls', same⟩ := sends x calls
      obtain ⟨dsa, status⟩ := sound.answers x' calls'
      rw [loop]
      exact ⟨same.trans dsa, status⟩
    · rw [loop]
      exact sound.peer

/-- The sending of a datagram that the slave may receive. -/
theorem sound_sendto (sound : s.Sound) {x : Sender} (calls : (s.host r).sender = some x) {sw nic : Timespec}
    (out : Sender × Option (List Byte)) (dsa : out.1.dsa = x.dsa)
    (carried : ∀ sent, out.2 = some sent → s.Carried ⟨c.address r, x.dsa, sent⟩) : (s.sendto r sw nic out).Sound := by
  obtain ⟨x', bytes⟩ := out
  have sends (y : Sender) (same : some x' = some y) : ∃ x', (s.host r).sender = some x' ∧ y.dsa = x'.dsa := by
    obtain rfl := Option.some.inj same
    exact ⟨x, calls, dsa⟩
  cases bytes with
  | none => exact sound_setHost (h := { s.host r with sender := some x' }) sound rfl sends sound.net
  | some sent =>
    have later : s.trace <+: (s.sendto r sw nic (x', some sent)).trace := List.prefix_append _ _
    refine sound_setHost (h := { s.host r with sender := some x', errq := (s.host r).errq.sendto sw nic }) sound rfl
      sends fun d member => carried_mono later ?_
    rcases List.mem_append.mp member with old | new
    · exact sound.net d old
    · obtain rfl := List.mem_singleton.mp new
      have reached := carried sent rfl
      rw [← dsa] at reached
      exact reached

theorem carried_of_slave {x : Sender} (answers : x.dsa = c.address .master) {sent : List Byte}
    (whole : 40 ≤ sent.length) : s.Carried ⟨c.address .slave, x.dsa, sent⟩ := by
  refine ⟨whole, fun dst => ?_⟩
  exact absurd (answers.symm.trans dst) c.apart

theorem sound_event (asks : s.Asks todo stage) (sound : s.Sound) {tv : Timeval} {sw nic : Timespec}
    (taken : s.step (.event r tv sw nic) = some t) : t.Sound := by
  obtain ⟨x, calls, guard, rfl⟩ := step_event.mp taken
  have dsa : (x.sendEvent (c.endian r) tv).1.dsa = x.dsa := congrArg Prod.fst (sendEvent_args (c.endian r) tv x)
  refine sound_sendto sound calls _ dsa fun sent out => ?_
  cases r with
  | slave => exact carried_of_slave (sound.answers x calls).1 (length_sendEvent out)
  | master =>
    obtain ⟨x₀, calls₀, calling⟩ := asks.calls
    obtain rfl : x = x₀ := Option.some.inj (calls.symm.trans calls₀)
    obtain ⟨k, rest, x', -, -, -, message, -⟩ := calling_event calling guard.2 tv sw nic
    rw [message] at out
    obtain rfl := Option.some.inj out
    refine ⟨full_message _ _ _, fun _ => ⟨rfl, fun type => ?_⟩⟩
    rw [decode_message] at type
    exact absurd type (show PktType.delayReq.code ≠ _ by decide)

theorem sound_followUp (asks : s.Asks todo stage) (sound : s.Sound) {sw nic : Timespec}
    (taken : s.step (.followUp r sw nic) = some t) : t.Sound := by
  obtain ⟨x, calls, guard, rfl⟩ := step_followUp.mp taken
  have dsa : (x.sendFollowUp (c.endian r)).1.dsa = x.dsa := congrArg Prod.fst (sendFollowUp_args (c.endian r) x)
  refine sound_sendto sound calls _ dsa fun sent out => ?_
  cases r with
  | slave => exact carried_of_slave (sound.answers x calls).1 (length_sendFollowUp out)
  | master =>
    obtain ⟨x₀, calls₀, calling⟩ := asks.calls
    obtain rfl : x = x₀ := Option.some.inj (calls.symm.trans calls₀)
    obtain ⟨k, rest, u, user, x', rfl, rfl, small, message, -⟩ := calling_followUp calling guard.2 sw nic
    rw [message] at out
    obtain rfl := Option.some.inj out
    refine ⟨full_message _ _ _, fun _ => ⟨rfl, fun _ => ⟨u, ?_, ?_⟩⟩⟩
    · rw [decode_message]
      have number : (BitVec.ofNat 32 k).toNat = k := toNat_seq small
      refine (asks.begun _ u (by rw [followUpHeader_seq, number]; exact List.mem_cons_self)).mpr ⟨?_, rfl⟩
      rw [followUpHeader_seq, number]
      rfl
    · rw [decode_message]
      rfl

theorem sound_deliver (sound : s.Sound) {i : Nat} {k : Stack} {cmsgs : List Cmsghdr}
    (taken : s.step (.deliver r i k cmsgs) = some t) : t.Sound := by
  obtain ⟨d, nic, found, -, ⟨dst, waits⟩, rfl⟩ := step_deliver.mp taken
  have later : s.trace <+: s.trace ++ [Obs.of r false d.bytes nic] := List.prefix_append _ _
  have net : ∀ d' ∈ s.net.eraseIdx i, s.Carried d' := fun d' member => sound.net d' (List.mem_of_mem_eraseIdx member)
  cases r with
  | master => exact sound_setHost_master sound _ fun d' member => carried_mono later (net d' member)
  | slave =>
    simp only [Host.waits, Bool.and_eq_true, Bool.or_eq_true, decide_eq_true_eq, Option.isNone_iff_eq_none] at waits
    obtain ⟨⟨-, running⟩, free⟩ := waits
    have idle : (s.host .slave).sender = none := free.resolve_left (by decide)
    have src : d.src = c.address .master := ((sound.net d (List.mem_of_getElem? found)).2 dst).1
    rw [src]
    refine sound_setHost_slave (fun d' member => carried_mono later (net d' member)) (fun x calls => ?_) ?_
    · rw [receive_sender, idle, Option.or_none] at calls
      have dsa := Slave.dsa_of_call sound.peer calls
      cases decided : (c.program .slave).doRecv k (.message d.bytes (c.address .master) cmsgs)
          (s.host .slave).loop.st with
      | sending got st call => exact ⟨dsa, running⟩
      | returned | exited | faulted =>
        rw [decided] at calls
        cases calls
    · cases decided : (c.program .slave).doRecv k (.message d.bytes (c.address .master) cmsgs)
          (s.host .slave).loop.st with
      | returned got st => exact Slave.peer_of_outcome sound.peer (congrArg DoRecv.outcome decided)
      | sending got st call => exact Slave.peer_of_outcome sound.peer (congrArg DoRecv.outcome decided)
      | exited | faulted => exact sound.peer

theorem sound_step (asks : s.Asks todo stage) (sound : s.Sound) (taken : s.step l = some t) : t.Sound := by
  cases l with
  | event r tv sw nic => exact sound_event asks sound taken
  | followUp r sw nic => exact sound_followUp asks sound taken
  | poll r =>
    obtain ⟨x, calls, -, rfl⟩ := step_poll.mp taken
    refine sound_setHost (h := { s.host r with sender := some (x.readErrq _), errq := _ }) sound rfl
      (fun y same => ?_) sound.net
    obtain rfl := Option.some.inj same
    exact ⟨x, calls, congrArg Prod.fst (readErrq_args _ x)⟩
  | loopback r =>
    obtain ⟨q, -, rfl⟩ := step_loopback.mp taken
    exact sound_setHost (h := { s.host r with errq := q }) sound rfl (fun x calls => ⟨x, calls, rfl⟩) sound.net
  | resume =>
    obtain ⟨x, -, -, rfl⟩ := step_resume.mp taken
    exact sound_setHost_slave sound.net (fun x none => by cases none) sound.peer
  | deliver r i k cmsgs => exact sound_deliver sound taken
  | drop i =>
    obtain ⟨-, rfl⟩ := step_drop.mp taken
    exact ⟨fun d member => sound.net d (List.mem_of_mem_eraseIdx member), sound.answers, sound.peer⟩
  | dup i =>
    obtain ⟨d, found, rfl⟩ := step_dup.mp taken
    refine ⟨fun d' member => ?_, sound.answers, sound.peer⟩
    rcases List.mem_append.mp member with old | new
    · exact sound.net d' old
    · exact List.mem_singleton.mp new ▸ sound.net d (List.mem_of_getElem? found)

theorem sound_of_run {var : Role → Int} {ls : List Label} (run : Run Sys.step Any (Sys.start c var) ls s) :
    (∃ todo stage, s.Asks todo stage) ∧ s.Sound := by
  obtain ⟨todo, asks⟩ := asks_start c var
  refine run_invariant (I := fun s : Sys c => (∃ todo stage, s.Asks todo stage) ∧ s.Sound)
    (fun s l t inv _ taken => ?_) ⟨⟨todo, none, asks⟩, sound_start c var⟩ run
  obtain ⟨⟨todo, stage, asks⟩, sound⟩ := inv
  exact ⟨asks_step asks taken, sound_step asks sound taken⟩

end Mdelay
