import Mdelay.Proofs.Attribution
import Mdelay.Proofs.Receiving

/-!
# The one peer the slave answers

Until a follow-up has come, every datagram records its source; the first follow-up records its own
and makes the counter leave 0, and from then on that address replaces every other.
-/

namespace Mdelay
open ByteOrder Transition

/-! ### What a run sends -/

/-- The calls of `send_udp_packets_timestamp` that a program makes while it receives the inputs. -/
def Program.calls (p : Program) : p.Loop → List (Stack × Recvmsg) → List Sender
  | _, [] => []
  | l, input :: inputs =>
    match p.turn l input with
    | none => []
    | some l' => (p.doRecv input.1 input.2 l.st).call.toList ++ p.calls l' inputs

def Recvmsg.isFollowUp : Recvmsg → Bool
  | .error => false
  | .message bytes _ _ => (decode .big bytes).type = PktType.delayReqFollowUp.code

def Recvmsg.source : Recvmsg → Option SockaddrIn
  | .error => none
  | .message _ src _ => some src

/-- The source of the first DELAY_REQ_FOLLOW_UP received. -/
def firstPeer (inputs : List (Stack × Recvmsg)) : Option SockaddrIn :=
  (inputs.find? fun input => input.2.isFollowUp).bind fun input => input.2.source

variable {cap : Nat} {e : Endian} {s s' : Slave.State cap}

/-! ### The recorded peer -/

/-- `count` follow-ups have come, the first of them from `first`. -/
structure Slave.State.Answers (e : Endian) (s : Slave.State cap) (count : Nat) (first : Option SockaddrIn) : Prop where
  total : s.meas.totalMeasurements = BitVec.ofNat 64 count
  none : count = 0 → first = none
  peer : count ≠ 0 → ∃ addr, first = some addr ∧ s.Peer e addr

theorem recordPeer_answers {count : Nat} {first : Option SockaddrIn} (answers : s.Answers e count first)
    (small : count < 2 ^ 64) (src : SockaddrIn) :
    ∃ s' addr, s.recordPeer e src = some (s', addr) ∧ s'.meas = s.meas ∧ first.or (some src) = some addr ∧
      s'.remoteIp = true ∧ s'.ntoaBuffer = inetNtoa e addr.sinAddr ∧ s'.remotePort = ntohs e addr.sinPort := by
  by_cases zero : count = 0
  · have start : s.meas.totalMeasurements = 0 := by
      rw [answers.total, zero]
      rfl
    rw [answers.none zero, Slave.State.recordPeer, if_pos start]
    exact ⟨_, src, rfl, rfl, rfl, rfl, rfl, rfl⟩
  · obtain ⟨addr, rfl, peer⟩ := answers.peer zero
    have counted : s.meas.totalMeasurements ≠ 0 := by
      intro start
      have := congrArg BitVec.toNat (answers.total.symm.trans start)
      rw [BitVec.toNat_ofNat, Nat.mod_eq_of_lt small] at this
      exact zero this
    obtain ⟨set, ip, port⟩ := peer counted
    refine ⟨s, addr, ?_, rfl, rfl, set, ip, port⟩
    rw [Slave.State.recordPeer, if_neg counted, if_pos set, ip, port, inetAddr_inetNtoa, ntohs_htons]

theorem answers_followUp {count : Nat} {first : Option SockaddrIn} {addr : SockaddrIn} {m : Measurements cap}
    (answers : s.Answers e count first) (total : m.totalMeasurements = s.meas.totalMeasurements + 1)
    (peer : s'.remoteIp = true ∧ s'.ntoaBuffer = inetNtoa e addr.sinAddr ∧ s'.remotePort = ntohs e addr.sinPort) :
    ({ s' with meas := m } : Slave.State cap).Answers e (count + 1) (some addr) := by
  refine ⟨?_, fun absurd => (by cases absurd), fun _ => ⟨addr, rfl, fun _ => peer⟩⟩
  change m.totalMeasurements = _
  rw [total, answers.total, BitVec.ofNat_add]
  rfl

theorem answers_event {count : Nat} {first : Option SockaddrIn} {src addr : SockaddrIn} {m : Measurements cap}
    (answers : s.Answers e count first) (total : m.totalMeasurements = s.meas.totalMeasurements)
    (known : first.or (some src) = some addr)
    (peer : s'.remoteIp = true ∧ s'.ntoaBuffer = inetNtoa e addr.sinAddr ∧ s'.remotePort = ntohs e addr.sinPort) :
    ({ s' with meas := m } : Slave.State cap).Answers e count first := by
  refine ⟨total.trans answers.total, answers.none, fun counted => ?_⟩
  obtain ⟨addr', rfl, -⟩ := answers.peer counted
  obtain rfl : addr' = addr := Option.some.inj known
  exact ⟨addr', rfl, fun _ => peer⟩

/-- One datagram: an answer goes to the first peer, which stays the same from the first follow-up on. -/
theorem answers_doRecv {count : Nat} {first : Option SockaddrIn} (answers : s.Answers e count first)
    (small : count < 2 ^ 64) (k : Stack) {r : Recvmsg} (typed : r.Typed) :
    let first' := if r.isFollowUp then first.or r.source else first
    (∀ call, (Slave.doRecv e k r s).call = some call → r.isFollowUp = true ∧ first' = some call.dsa) ∧
      ∀ got st, (Slave.doRecv e k r s).outcome = some (got, st) →
        st.Answers e (count + if r.isFollowUp then 1 else 0) first' := by
  cases r with
  | error => exact typed.elim
  | message bytes src cmsgs =>
    have positive := got_pos bytes src cmsgs (by rintro rfl; cases typed)
    have decoded : (decode e ((Recvmsg.message bytes src cmsgs).buffer k)).type = (decode .big bytes).type :=
      (front_of_message (e := e) k src cmsgs typed).2
    obtain ⟨s', addr, recorded, same, known, peer⟩ := recordPeer_answers answers small src
    refine ⟨fun call sending => ?_, fun got st outcome => ?_⟩
    · obtain ⟨u, host, recorded', type, rfl⟩ := Slave.of_call sending
      obtain ⟨rfl, rfl⟩ := Prod.mk.inj (Option.some.inj (recorded.symm.trans recorded'))
      rw [decoded] at type
      have kind : (Recvmsg.message bytes src cmsgs).isFollowUp = true := decide_eq_true type
      rw [if_pos kind]
      exact ⟨kind, known⟩
    · have arms := Slave.of_outcome outcome
      dsimp only at arms
      rw [decoded] at arms
      rcases arms with ⟨empty, -⟩ | ⟨u, host, m, recorded', rfl, arm⟩
      · exact absurd empty (Int.ne_of_gt positive)
      · obtain ⟨rfl, rfl⟩ := Prod.mk.inj (Option.some.inj (recorded.symm.trans recorded'))
        rcases arm with ⟨type, ts, -, written⟩ | ⟨type, written⟩
        · have kind : (Recvmsg.message bytes src cmsgs).isFollowUp = false := by
            refine decide_eq_false ?_
            rw [type]
            decide
          rw [kind]
          exact answers_event answers (by rw [(of_modify written).2, same]) known peer
        · have kind : (Recvmsg.message bytes src cmsgs).isFollowUp = true := decide_eq_true type
          rw [kind, if_pos rfl, if_pos rfl, show (Recvmsg.message bytes src cmsgs).source = some src from rfl, known]
          refine answers_followUp answers ?_ peer
          rw [(of_modify written).2, ← same]
          rfl

/-! ### Whole runs -/

variable {p : Program} {l l' : p.Loop} {input : Stack × Recvmsg} {inputs : List (Stack × Recvmsg)}

theorem turn_stops (turned : p.turn l input = some l') :
    (∃ got, (p.doRecv input.1 input.2 l.st).outcome = some (got, l'.st)) ∨ l'.status ≠ .running := by
  have running := running_of_turn turned
  rw [Program.turn, if_pos running] at turned
  cases decided : p.doRecv input.1 input.2 l.st with
  | returned got st | sending got st x =>
    rw [decided] at turned
    obtain rfl := Option.some.inj turned
    exact Or.inl ⟨got, rfl⟩
  | exited | faulted =>
    rw [decided] at turned
    obtain rfl := Option.some.inj turned
    exact Or.inr fun absurd => by cases absurd

theorem calls_of_stopped (stopped : l.status ≠ .running) : p.calls l inputs = [] := by
  cases inputs with
  | nil => rfl
  | cons input inputs =>
    have none : p.turn l input = none := if_neg stopped
    rw [Program.calls, none]

theorem firstPeer_cons (input : Stack × Recvmsg) (inputs : List (Stack × Recvmsg)) :
    firstPeer (input :: inputs) = if input.2.isFollowUp then input.2.source else firstPeer inputs := by
  unfold firstPeer
  rw [List.find?_cons]
  cases input.2.isFollowUp <;> rfl

theorem or_source {r : Recvmsg} (followUp : r.isFollowUp = true) (first later : Option SockaddrIn) :
    (first.or r.source).or later = first.or r.source := by
  cases r with
  | error => cases followUp
  | message bytes src cmsgs =>
    rw [Option.or_assoc]
    rfl

theorem calls_answered {measureNumber : BitVec 32} {l : (Slave.program e measureNumber).Loop} {count : Nat}
    {first : Option SockaddrIn} (typed : ∀ input ∈ inputs, input.2.Typed)
    (answers : Slave.State.Answers e l.st count first)
    (few : count + inputs.countP (fun input => input.2.isFollowUp) < 2 ^ 64) :
    ∀ call ∈ (Slave.program e measureNumber).calls l inputs, first.or (firstPeer inputs) = some call.dsa := by
  induction inputs generalizing l count first with
  | nil => exact fun call member => by cases member
  | cons input inputs ih =>
    intro call member
    obtain ⟨here, rest⟩ := List.forall_mem_cons.mp typed
    rw [List.countP_cons] at few
    obtain ⟨sends, keeps⟩ := answers_doRecv answers (by omega) input.1 here
    rw [Program.calls] at member
    rw [firstPeer_cons]
    cases turned : (Slave.program e measureNumber).turn l input with
    | none =>
      rw [turned] at member
      cases member
    | some l' =>
      rw [turned] at member
      rcases List.mem_append.mp member with now | later
      · obtain ⟨followUp, dsa⟩ := sends call (Option.mem_toList.mp now)
        rw [if_pos followUp] at dsa ⊢
        exact dsa
      · rcases turn_stops turned with ⟨got, outcome⟩ | stopped
        · have answers' := keeps got l'.st outcome
          have first' := ih rest answers' (by omega) call later
          by_cases followUp : input.2.isFollowUp = true
          · rw [if_pos followUp] at first' ⊢
            rwa [or_source followUp] at first'
          · rwa [if_neg followUp] at first' ⊢
        · rw [calls_of_stopped stopped] at later
          cases later

/-! ### Destinations -/

variable {x y : Call} {ls : List CallLabel}

theorem dst_sendto (sent : ∀ d ∈ x.sent, d.dst = x.sender.dsa) (sw nic : Timespec)
    {out : Sender × Option (List Byte)} (args : out.1.args = x.sender.args) :
    ∀ d ∈ (x.sendto sw nic out).sent, d.dst = x.sender.dsa := by
  obtain ⟨sender, bytes⟩ := out
  have dsa : sender.dsa = x.sender.dsa := (Prod.mk.inj args).1
  cases bytes with
  | none => exact sent
  | some bytes =>
    intro d member
    rcases List.mem_append.mp member with old | new
    · exact sent d old
    · obtain rfl := List.mem_singleton.mp new
      exact dsa

theorem dst_step {label : CallLabel} (sent : ∀ d ∈ x.sent, d.dst = x.sender.dsa)
    (taken : x.step e label = some y) : ∀ d ∈ y.sent, d.dst = y.sender.dsa := by
  have dsa : y.sender.dsa = x.sender.dsa := (Prod.mk.inj (extends_step taken).args).1
  rw [dsa]
  cases label with
  | event tv sw nic =>
    obtain ⟨-, rfl⟩ := Call.step_event.mp taken
    exact dst_sendto sent sw nic (sendEvent_args e tv x.sender)
  | followUp sw nic =>
    obtain ⟨-, rfl⟩ := Call.step_followUp.mp taken
    exact dst_sendto sent sw nic (sendFollowUp_args e x.sender)
  | loopback =>
    obtain ⟨m, rest, -, rfl⟩ := Call.step_loopback.mp taken
    exact sent
  | poll =>
    obtain ⟨-, rfl⟩ := Call.step_poll.mp taken
    unfold Call.recvmsg
    split <;> exact sent
  | fail =>
    obtain ⟨-, rfl⟩ := Call.step_fail.mp taken
    exact sent

/-- Where a call sends does not depend on what it reads. -/
theorem dst_of_run (run : Run (Call.step e) Any x ls y) (sent : ∀ d ∈ x.sent, d.dst = x.sender.dsa) :
    ∀ d ∈ y.sent, d.dst = y.sender.dsa :=
  run_invariant (I := fun y => ∀ d ∈ y.sent, d.dst = y.sender.dsa)
    (fun _ _ _ before _ taken => dst_step before taken) sent run

/-- Whatever the sources of what the slave receives, all it sends goes to that of the first follow-up,
in any course of its calls and with anything in the error queue before. -/
theorem slave_answers_one_peer (e : Endian) (measureNumber : BitVec 32) (var : Int)
    (inputs : List (Stack × Recvmsg)) (typed : ∀ input ∈ inputs, input.2.Typed)
    (few : inputs.countP (fun input => input.2.isFollowUp) < 2 ^ 64) :
    let p := Slave.program e measureNumber
    ∀ call ∈ p.calls (p.enter var) inputs, ∃ addr, firstPeer inputs = some addr ∧
      ∀ (x y : Call) (ls : List CallLabel), x.sender = call → x.sent = [] → Run (Call.step e) Any x ls y →
        ∀ d ∈ y.sent, d.dst = addr := by
  intro p call member
  have start : Slave.State.Answers e (p.enter var).st 0 none :=
    ⟨rfl, fun _ => rfl, fun counted => absurd rfl counted⟩
  have first := calls_answered typed start (by rwa [Nat.zero_add]) call member
  rw [Option.none_or] at first
  refine ⟨call.dsa, first, fun x y ls same empty run d sent => ?_⟩
  have dst := dst_of_run run (by rw [empty]; exact fun d absurd => by cases absurd) d sent
  rw [dst, ← same]
  exact (Prod.mk.inj (args_of_run run)).1

/-- A request from one address, a follow-up from a second, a follow-up from a third. -/
def threeSources : List (Stack × Recvmsg) :=
  let cmsgs : List Cmsghdr := [⟨solSocket, soTimestamping, 48, [⟨0, 0⟩, ⟨0, 0⟩, ⟨0, 9⟩]⟩]
  [(.cleared, .message ((Role.master.eventHeader 0 7).message payloadSize 0x41) ⟨1, 1⟩ cmsgs),
    (.cleared, .message ((Role.master.followUpHeader 0 7 5).message payloadSize 0x42) ⟨2, 2⟩ cmsgs),
    (.cleared, .message ((Role.master.followUpHeader 1 7 6).message payloadSize 0x42) ⟨3, 3⟩ cmsgs)]

theorem slave_answers_one_peer_of_three :
    let p := Slave.program .little 5
    (p.calls (p.enter 1) threeSources).map Sender.dsa = [⟨2, 2⟩, ⟨2, 2⟩] ∧
      ∀ call ∈ p.calls (p.enter 1) threeSources, ∃ addr, firstPeer threeSources = some addr := by
  intro p
  have typed : ∀ input ∈ threeSources, input.2.Typed := by
    intro input member
    simp only [threeSources, List.mem_cons, List.not_mem_nil, or_false] at member
    rcases member with rfl | rfl | rfl <;> exact Nat.lt_of_lt_of_le (by decide) (full_message _ _ _)
  refine ⟨by decide +kernel, fun call member => ?_⟩
  obtain ⟨addr, first, -⟩ := slave_answers_one_peer .little 5 1 threeSources typed (by decide +kernel) call member
  exact ⟨addr, first⟩

end Mdelay
