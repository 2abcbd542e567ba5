import Mdelay.Model.Reference
import Mdelay.Proofs.Frame
import Mdelay.Proofs.Rx
import Mdelay.Protocol.Echo

/-!
# What the reference sender measures

The closed system refines packets that are numbered, sent out and returned, so every number it writes is the
round trip of a packet.
-/

namespace Mdelay.Reference
open ByteOrder Transition

variable {c : Setup} {s t : Sys c} {l : Label} {ls : List Label} {a b : Echo.State Timeval}

/-! ### The two programs on a packet -/

theorem main_turn {cfg : RefSender.Configuration} {e : Endian} {k : Nat} {tv now : Timeval} {x y : RefSender.Main}
    (turned : cfg.turn e (.message (RefSender.payload k tv)) now x = some y) :
    x.status = .running ∧
      ((x.previousReceivedTimestamp = tv.nanos ∧ ∃ buf, y = { x with status := .exited, buf := buf }) ∨
        (x.previousReceivedTimestamp ≠ tv.nanos ∧ ∃ buf, y = {
          status := if x.i + 1 < cfg.cfgMaxPackets.toNat then .running else .left
          i := x.i + 1
          buf := buf
          previousReceivedTimestamp := tv.nanos
          latencyNumbers := x.latencyNumbers ++ [now.nanos - tv.nanos] })) := by
  have whole : (RefSender.payload k tv).take RefSender.udpPayloadSize = RefSender.payload k tv :=
    List.take_of_length_le (RefSender.length_payload k tv).le
  have sent (old : List Byte) :
      ntoh64 e (Mdelayhdr.ofBytes e (memcpy old (RefSender.payload k tv))).t1 = tv.nanos := by
    have decoded := decode_wire e (RefSender.header k tv) 0
      (List.replicate (RefSender.udpPayloadSize - sizeofMdelayhdr) 0x41 ++ old.drop (RefSender.payload k tv).length)
    rw [← List.append_assoc] at decoded
    exact congrArg Header.t1 decoded
  unfold RefSender.Configuration.turn at turned
  by_cases running : x.status = .running
  · refine ⟨running, ?_⟩
    rw [if_pos running] at turned
    simp only [whole, sent] at turned
    split at turned
    · rename_i same
      exact Or.inl ⟨same, _, (Option.some.inj turned).symm⟩
    · rename_i other
      exact Or.inr ⟨other, _, (Option.some.inj turned).symm⟩
  · rw [if_neg running] at turned
    cases turned

theorem rx_turn {cfg : Rx.Configuration} {e : Endian} {k : Nat} {tv : Timeval} {x y : Rx.Loop cfg.entries} {call : Rx.Call}
    {src : SockaddrIn} {cmsgs : List Cmsghdr}
    (turned : cfg.turn e x { call with recvmsg := .message (RefSender.payload k tv) src cmsgs } = some y) :
    x.status = .running ∧
      ((y.status = .running ∨ y.status = .left) ∧
          (y.packets.drop x.packets.length).map Rx.Packet.datagram = [RefSender.payload k tv] ∨
        (y.status = .exited ∨ y.status = .faulted) ∧ y.packets = x.packets) := by
  obtain ⟨running, outcome⟩ := Rx.turn_cases turned
  refine ⟨running, ?_⟩
  rcases outcome with ⟨-, rfl⟩ | ⟨st, -, rfl | ⟨-, packets, returned, ending⟩⟩
  · exact Or.inr ⟨Or.inr rfl, rfl⟩
  · exact Or.inr ⟨Or.inl rfl, rfl⟩
  · left
    have status : y.status = .running ∨ y.status = .left := ending.imp And.left And.left
    obtain ⟨-, datagram, -⟩ := Rx.packet_of_returned (e := e) returned
    have size := RefSender.length_payload k tv
    have whole : (RefSender.payload k tv).take Rx.bufferSize = RefSender.payload k tv :=
      List.take_of_length_le (by rw [size]; decide)
    have some : RefSender.payload k tv ≠ [] := by
      intro empty
      rw [empty] at size
      cases size
    refine ⟨status, ?_⟩
    rw [packets, List.drop_left]
    unfold Rx.Call.returns at datagram
    simp only [some, false_and, if_false, whole] at datagram
    obtain ⟨p, found, bytes⟩ := Option.map_eq_some_iff.mp datagram
    rw [found, Option.toList_some, List.map_singleton, bytes]

/-! ### Refinement -/

def sentAt (a : Echo.State Timeval) (k : Nat) : Timeval := (a.sent[k]?).getD ⟨0, 0⟩

/-- The closed system stands for the numbered packets. -/
structure Refines (s : Sys c) (a : Echo.State Timeval) : Prop where
  steady : RefSender.Steady c.senderEndian s.thread
  number : s.thread.i = a.sent.length
  bounded : a.sent.length ≤ c.sender.cfgMaxPackets.toNat
  sound : a.Sound
  down : s.down = a.down.map fun k => RefSender.frame c.senderEndian k (sentAt a k)
  up : s.up = a.up.map fun k => RefSender.payload k (sentAt a k)
  latencies : s.main.latencyNumbers = a.answers.map fun p => p.2.nanos - (sentAt a p.1).nanos
  previous : s.main.previousReceivedTimestamp = (a.answers.getLast?.map fun p => (sentAt a p.1).nanos).getD 0
  i : s.main.i = a.answers.length
  running : s.main.status = .running → a.answers.length < c.sender.cfgMaxPackets.toNat
  left : s.main.status = .left → a.answers.length = c.sender.cfgMaxPackets.toNat
  sane : s.main.status ≠ .faulted

theorem refines_start (memory : Rx.Latencies c.receiver.entries) (buf : List Byte) :
    Refines (Sys.start c memory buf) .start := by
  have status : (Sys.start c memory buf).main.status = if 0 < c.sender.cfgMaxPackets.toNat then .running else .left := rfl
  refine ⟨RefSender.steady_enter _, rfl, Nat.zero_le _, Echo.sound_start, rfl, rfl, rfl, rfl, rfl, fun running => ?_,
    fun left => ?_, ?_⟩
  · by_contra none
    have zero : ¬ 0 < c.sender.cfgMaxPackets.toNat := none
    rw [status, if_neg zero] at running
    cases running
  · by_contra some
    have positive : 0 < c.sender.cfgMaxPackets.toNat := Nat.pos_of_ne_zero (Ne.symm some)
    rw [status, if_pos positive] at left
    cases left
  · rw [status]
    split <;> simp

/-- What a label does to the packets. The receiver swallows a packet when it stops, and the sender one when it exits. -/
def Label.Does (l : Label) (act : Echo.Action Timeval) (t : Sys c) : Prop :=
  match l with
  | .send tv => act = .send tv
  | .arrive i _ _ _ =>
    act = .reflect i ∧ (t.rx.status = .running ∨ t.rx.status = .left) ∨
      act = .dropDown i ∧ (t.rx.status = .exited ∨ t.rx.status = .faulted)
  | .receive i tv => act = .answer i tv ∧ t.main.status ≠ .exited ∨ act = .dropUp i ∧ t.main.status = .exited
  | .dropDown i => act = .dropDown i
  | .dropUp i => act = .dropUp i
  | .dupDown i => act = .dupDown i
  | .dupUp i => act = .dupUp i

theorem sentAt_append (a : Echo.State Timeval) (tv : Timeval) {k : Nat} (inside : k < a.sent.length) (down : List Nat) :
    sentAt { a with sent := a.sent ++ [tv], down := down } k = sentAt a k := by
  unfold sentAt
  rw [List.getElem?_append_left inside]

theorem found_map {f : Nat → List Byte} {ks : List Nat} {xs : List (List Byte)} {bytes : List Byte} {i : Nat}
    (same : xs = ks.map f) (found : xs[i]? = some bytes) : ∃ k, ks[i]? = some k ∧ bytes = f k := by
  rw [same, List.getElem?_map] at found
  obtain ⟨k, member, rfl⟩ := Option.map_eq_some_iff.mp found
  exact ⟨k, member, rfl⟩

theorem refines_send (refines : Refines s a) {tv : Timeval} (taken : s.step (.send tv) = some t) :
    ∃ b, Echo.Stepped a (.send tv) b ∧ Refines t b := by
  have stepped := Echo.Stepped.send a tv
  obtain ⟨⟨more, -⟩, rfl⟩ := step_send.mp taken
  refine ⟨_, stepped, ?_⟩
  have older (k : Nat) (member : k ∈ a.numbers) :
      sentAt { a with sent := a.sent ++ [tv], down := a.down ++ [a.sent.length] } k = sentAt a k :=
    sentAt_append a tv (refines.sound k member) _
  have newest : sentAt { a with sent := a.sent ++ [tv], down := a.down ++ [a.sent.length] } a.sent.length = tv := by
    simp [sentAt]
  have answered (p : Nat × Timeval) (member : p ∈ a.answers) : p.1 ∈ a.numbers :=
    List.mem_append_left _ (List.mem_append_left _ (List.mem_map.mpr ⟨p, member, rfl⟩))
  have down : (a.down.map fun k => RefSender.frame c.senderEndian k
        (sentAt { a with sent := a.sent ++ [tv], down := a.down ++ [a.sent.length] } k)) = s.down := by
    rw [refines.down]
    refine List.map_congr_left fun k member => ?_
    rw [older k (List.mem_append_right _ member)]
  refine ⟨RefSender.steady_iterate refines.steady tv, ?_, ?_, Echo.sound_step refines.sound stepped, ?_, ?_, ?_, ?_,
    refines.i, refines.running, refines.left, refines.sane⟩
  · simp [RefSender.SendPackets.iterate, refines.number]
  · rw [List.length_append, List.length_singleton, ← refines.number]
    exact more
  · rw [RefSender.iterate_buffer refines.steady, List.map_append, List.map_singleton, down, newest, refines.number]
  · rw [refines.up]
    refine List.map_congr_left fun k member => ?_
    rw [older k (List.mem_append_left _ (List.mem_append_right _ member))]
  · rw [refines.latencies]
    refine List.map_congr_left fun p member => ?_
    rw [older p.1 (answered p member)]
  · rw [refines.previous]
    have same : (a.answers.getLast?.map fun p =>
        (sentAt { a with sent := a.sent ++ [tv], down := a.down ++ [a.sent.length] } p.1).nanos) =
        a.answers.getLast?.map fun p => (sentAt a p.1).nanos := by
      refine Option.map_congr fun p last => ?_
      rw [older p.1 (answered p (List.mem_of_getLast? last))]
    rw [same]

theorem accepts_frame {e : Endian} {k : Nat} {tv : Timeval} {data : List Byte}
    (accepted : c.accepts (RefSender.frame e k tv) = some data) : data = RefSender.payload k tv := by
  rw [Setup.accepts, RefSender.ofFrame_frame, Option.bind_some] at accepted
  split at accepted
  · exact (Option.some.inj accepted).symm
  · cases accepted

theorem refines_arrive (refines : Refines s a) {i : Nat} {src : SockaddrIn} {cmsgs : List Cmsghdr} {call : Rx.Call}
    (taken : s.step (.arrive i src cmsgs call) = some t) :
    s.rx.status = .running ∧ ∃ act b, Echo.Stepped a act b ∧ Refines t b ∧ (Label.arrive i src cmsgs call).Does act t := by
  obtain ⟨frame, data, rx, found, accepted, turned, rfl⟩ := step_arrive.mp taken
  obtain ⟨k, number, rfl⟩ := found_map refines.down found
  obtain rfl := accepts_frame accepted
  obtain ⟨running, ⟨status, back⟩ | ⟨status, none⟩⟩ := rx_turn turned
  · have stepped := Echo.Stepped.reflect number
    refine ⟨running, _, _, stepped, ⟨refines.steady, refines.number, refines.bounded, Echo.sound_step refines.sound stepped,
      ?_, ?_, refines.latencies, refines.previous, refines.i, refines.running, refines.left, refines.sane⟩,
      Or.inl ⟨rfl, status⟩⟩
    · rw [refines.down, ← List.eraseIdx_map]
      rfl
    · rw [back, refines.up, List.map_append]
      rfl
  · have stepped := Echo.Stepped.dropDown number
    refine ⟨running, _, _, stepped, ⟨refines.steady, refines.number, refines.bounded, Echo.sound_step refines.sound stepped,
      ?_, ?_, refines.latencies, refines.previous, refines.i, refines.running, refines.left, refines.sane⟩,
      Or.inr ⟨rfl, status⟩⟩
    · rw [refines.down, ← List.eraseIdx_map]
      rfl
    · rw [none, List.drop_length, List.map_nil, List.append_nil, refines.up]
      rfl

theorem refines_receive (refines : Refines s a) {i : Nat} {tv : Timeval} (taken : s.step (.receive i tv) = some t) :
    ∃ act b, Echo.Stepped a act b ∧ Refines t b ∧ (Label.receive i tv).Does act t := by
  obtain ⟨bytes, main, found, turned, rfl⟩ := step_receive.mp taken
  obtain ⟨k, number, rfl⟩ := found_map refines.up found
  obtain ⟨running, ⟨same, buf, rfl⟩ | ⟨other, buf, rfl⟩⟩ := main_turn turned
  · have stepped := Echo.Stepped.dropUp number
    refine ⟨_, _, stepped, ⟨refines.steady, refines.number, refines.bounded, Echo.sound_step refines.sound stepped,
      refines.down, ?_, refines.latencies, refines.previous, refines.i, by simp, by simp, by simp⟩, Or.inr ⟨rfl, rfl⟩⟩
    rw [refines.up, ← List.eraseIdx_map]
    rfl
  · have stepped := Echo.Stepped.answer tv number
    have few := refines.running running
    refine ⟨_, _, stepped, ⟨refines.steady, refines.number, refines.bounded, Echo.sound_step refines.sound stepped,
      refines.down, ?_, ?_, ?_, ?_, fun status => ?_, fun status => ?_, ?_⟩, Or.inl ⟨rfl, ?_⟩⟩
    · rw [refines.up, ← List.eraseIdx_map]
      rfl
    · rw [refines.latencies, List.map_append]
      rfl
    · simp [sentAt]
    · simp [refines.i]
    · dsimp only at status
      rw [refines.i] at status
      split at status
      · simpa using ‹_›
      · cases status
    · dsimp only at status
      rw [refines.i] at status
      split at status
      · cases status
      · rw [List.length_append, List.length_singleton]
        omega
    · dsimp only
      split <;> simp
    · dsimp only
      split <;> simp

theorem refines_step (refines : Refines s a) (taken : s.step l = some t) :
    ∃ act b, Echo.Stepped a act b ∧ Refines t b ∧ l.Does act t := by
  cases l with
  | send tv =>
    obtain ⟨b, stepped, refines'⟩ := refines_send refines taken
    exact ⟨_, b, stepped, refines', rfl⟩
  | arrive i src cmsgs call => exact (refines_arrive refines taken).2
  | receive i tv => exact refines_receive refines taken
  | dropDown i =>
    obtain ⟨frame, found, rfl⟩ := step_dropDown.mp taken
    obtain ⟨k, number, rfl⟩ := found_map refines.down found
    have stepped := Echo.Stepped.dropDown number
    refine ⟨_, _, stepped, ⟨refines.steady, refines.number, refines.bounded, Echo.sound_step refines.sound stepped,
      ?_, refines.up, refines.latencies, refines.previous, refines.i, refines.running, refines.left, refines.sane⟩, rfl⟩
    rw [refines.down, ← List.eraseIdx_map]
    rfl
  | dropUp i =>
    obtain ⟨bytes, found, rfl⟩ := step_dropUp.mp taken
    obtain ⟨k, number, rfl⟩ := found_map refines.up found
    have stepped := Echo.Stepped.dropUp number
    refine ⟨_, _, stepped, ⟨refines.steady, refines.number, refines.bounded, Echo.sound_step refines.sound stepped,
      refines.down, ?_, refines.latencies, refines.previous, refines.i, refines.running, refines.left, refines.sane⟩, rfl⟩
    rw [refines.up, ← List.eraseIdx_map]
    rfl
  | dupDown i =>
    obtain ⟨frame, found, rfl⟩ := step_dupDown.mp taken
    obtain ⟨k, number, rfl⟩ := found_map refines.down found
    have stepped := Echo.Stepped.dupDown number
    refine ⟨_, _, stepped, ⟨refines.steady, refines.number, refines.bounded, Echo.sound_step refines.sound stepped,
      ?_, refines.up, refines.latencies, refines.previous, refines.i, refines.running, refines.left, refines.sane⟩, rfl⟩
    rw [refines.down, List.map_append]
    rfl
  | dupUp i =>
    obtain ⟨bytes, found, rfl⟩ := step_dupUp.mp taken
    obtain ⟨k, number, rfl⟩ := found_map refines.up found
    have stepped := Echo.Stepped.dupUp number
    refine ⟨_, _, stepped, ⟨refines.steady, refines.number, refines.bounded, Echo.sound_step refines.sound stepped,
      refines.down, ?_, refines.latencies, refines.previous, refines.i, refines.running, refines.left, refines.sane⟩, rfl⟩
    rw [refines.up, List.map_append]
    rfl

/-! ### Histories -/

@[simp] theorem sendTimes_snoc (ls : List Label) (l : Label) : sendTimes (ls ++ [l]) = sendTimes ls ++ sendTimes [l] :=
  List.filterMap_append

@[simp] theorem receiveTimes_snoc (ls : List Label) (l : Label) :
    receiveTimes (ls ++ [l]) = receiveTimes ls ++ receiveTimes [l] := List.filterMap_append

/-- The packets have the times of the labels. Only an exit leaves a packet that was received without an answer. -/
structure Traced (s : Sys c) (a : Echo.State Timeval) (ls : List Label) : Prop where
  refines : Refines s a
  sent : a.sent = sendTimes ls
  received : ∃ rest, receiveTimes ls = a.answers.map Prod.snd ++ rest ∧ (s.main.status ≠ .exited → rest = [])

theorem traced_start (memory : Rx.Latencies c.receiver.entries) (buf : List Byte) :
    Traced (Sys.start c memory buf) .start [] :=
  ⟨refines_start memory buf, rfl, [], rfl, fun _ => rfl⟩

theorem running_of_receive {i : Nat} {tv : Timeval} (taken : s.step (.receive i tv) = some t) :
    s.main.status = .running := by
  obtain ⟨bytes, main, -, turned, -⟩ := step_receive.mp taken
  unfold RefSender.Configuration.turn at turned
  split at turned
  · assumption
  · cases turned

def Label.IsReceive : Label → Prop
  | .receive _ _ => True
  | _ => False

/-- Only a packet received touches `main`. -/
theorem main_of_step (taken : s.step l = some t) (other : ¬ l.IsReceive) : t.main = s.main := by
  cases l with
  | send tv =>
    obtain ⟨-, rfl⟩ := step_send.mp taken
    rfl
  | arrive i src cmsgs call =>
    obtain ⟨-, -, -, -, -, -, rfl⟩ := step_arrive.mp taken
    rfl
  | receive i tv => exact absurd trivial other
  | dropDown i =>
    obtain ⟨-, -, rfl⟩ := step_dropDown.mp taken
    rfl
  | dropUp i =>
    obtain ⟨-, -, rfl⟩ := step_dropUp.mp taken
    rfl
  | dupDown i =>
    obtain ⟨-, -, rfl⟩ := step_dupDown.mp taken
    rfl
  | dupUp i =>
    obtain ⟨-, -, rfl⟩ := step_dupUp.mp taken
    rfl

theorem sent_of_does {act : Echo.Action Timeval} (stepped : Echo.Stepped a act b) (does : l.Does act t) :
    b.sent = a.sent ++ sendTimes [l] := by
  cases l with
  | send tv =>
    obtain rfl : act = .send tv := does
    cases stepped
    rfl
  | arrive i src cmsgs call =>
    rcases does with ⟨rfl, -⟩ | ⟨rfl, -⟩ <;> cases stepped <;> exact (List.append_nil _).symm
  | receive i tv => rcases does with ⟨rfl, -⟩ | ⟨rfl, -⟩ <;> cases stepped <;> exact (List.append_nil _).symm
  | dropDown i | dropUp i | dupDown i | dupUp i =>
    obtain rfl : act = _ := does
    cases stepped
    exact (List.append_nil _).symm

theorem answers_of_does {act : Echo.Action Timeval} (stepped : Echo.Stepped a act b) (does : l.Does act t)
    (other : ¬ l.IsReceive) : b.answers = a.answers ∧ receiveTimes [l] = [] := by
  cases l with
  | receive i tv => exact absurd trivial other
  | arrive i src cmsgs call =>
    rcases does with ⟨rfl, -⟩ | ⟨rfl, -⟩ <;> cases stepped <;> exact ⟨rfl, rfl⟩
  | send tv | dropDown i | dropUp i | dupDown i | dupUp i =>
    obtain rfl : act = _ := does
    cases stepped
    exact ⟨rfl, rfl⟩

theorem traced_step (traced : Traced s a ls) (taken : s.step l = some t) :
    ∃ act b, Echo.Stepped a act b ∧ Traced t b (ls ++ [l]) ∧ l.Does act t := by
  obtain ⟨act, b, stepped, refines, does⟩ := refines_step traced.refines taken
  obtain ⟨rest, received, alive⟩ := traced.received
  refine ⟨act, b, stepped, ⟨refines, ?_, ?_⟩, does⟩
  · rw [sent_of_does stepped does, sendTimes_snoc, traced.sent]
  · by_cases takes : l.IsReceive
    · cases l with
      | receive i tv =>
        have running := running_of_receive taken
        obtain rfl := alive (by rw [running]; decide)
        rw [List.append_nil] at received
        rcases does with ⟨rfl, status⟩ | ⟨rfl, status⟩
        · cases stepped
          exact ⟨[], by rw [receiveTimes_snoc, received, List.map_append, List.append_nil]; rfl, fun _ => rfl⟩
        · cases stepped
          exact ⟨[tv], by rw [receiveTimes_snoc, received]; rfl, fun other => absurd status other⟩
      | send tv | arrive i src cmsgs call | dropDown i | dropUp i | dupDown i | dupUp i => exact takes.elim
    · obtain ⟨answers, none⟩ := answers_of_does stepped does takes
      refine ⟨rest, ?_, ?_⟩
      · rw [receiveTimes_snoc, received, answers, none, List.append_nil]
      · rwa [main_of_step taken takes]

/-! ### Round trips -/

theorem sentAt_of_mem (a : Echo.State Timeval) {k : Nat} (sound : a.Sound) (member : k ∈ a.numbers) :
    a.sent[k]? = some (sentAt a k) := by
  rw [sentAt, List.getElem?_eq_getElem (sound k member)]
  rfl

theorem mem_of_up {i k : Nat} (found : a.up[i]? = some k) : k ∈ a.numbers :=
  List.mem_append_left _ (List.mem_append_right _ (List.mem_of_getElem? found))

/-- Three packets between hosts of different byte orders, and a receiver with room for five. -/
def Setup.several : Setup where
  sender := ⟨['e', 't', 'h', '0'], 2, 1337, 3⟩
  receiver := ⟨none, 1337, .udp, 5⟩
  senderEndian := .little
  receiverEndian := .big

def severalMemory : Rx.Latencies Setup.several.receiver.entries := .malloc (fun _ => 77) (fun _ => 77) fun _ => 77

/-- The thread's readings of the clock differ, and none is the 0 that the loop of `main` starts with. -/
structure Stamped (ls : List Label) : Prop where
  distinct : ((sendTimes ls).map Timeval.nanos).Nodup
  nonzero : 0 ∉ (sendTimes ls).map Timeval.nanos

theorem stamped_of_snoc (stamped : Stamped (ls ++ [l])) : Stamped ls := by
  obtain ⟨distinct, nonzero⟩ := stamped
  rw [sendTimes_snoc, List.map_append] at distinct nonzero
  exact ⟨distinct.of_append_left, fun member => nonzero (List.mem_append_left _ member)⟩

theorem exit_of_receive (refines : Refines s a) {i : Nat} {tv : Timeval} (taken : s.step (.receive i tv) = some t)
    (exited : t.main.status = .exited) :
    ∃ k, a.up[i]? = some k ∧ s.main.previousReceivedTimestamp = (sentAt a k).nanos := by
  obtain ⟨bytes, main, found, turned, rfl⟩ := step_receive.mp taken
  obtain ⟨k, number, rfl⟩ := found_map refines.up found
  obtain ⟨-, ⟨same, -⟩ | ⟨-, buf, rfl⟩⟩ := main_turn turned
  · exact ⟨k, number, same⟩
  · dsimp only at exited
    split at exited <;> cases exited

/-- Two packets in a row with one stamp are one packet, which has come twice. -/
theorem not_exited_of_receive (traced : Traced s a ls) (nodup : a.numbers.Nodup) (stamped : Stamped ls) {i : Nat}
    {tv : Timeval} (taken : s.step (.receive i tv) = some t) : t.main.status ≠ .exited := by
  intro exited
  obtain ⟨k, found, same⟩ := exit_of_receive traced.refines taken exited
  have sent := sentAt_of_mem a traced.refines.sound (mem_of_up found)
  have stamp : ((sendTimes ls).map Timeval.nanos)[k]? = some (sentAt a k).nanos := by
    rw [← traced.sent, List.getElem?_map, sent, Option.map_some]
  rw [traced.refines.previous] at same
  cases last : a.answers.getLast? with
  | none =>
    rw [last] at same
    exact stamped.nonzero (List.mem_of_getElem? (stamp.trans (congrArg some same.symm)))
  | some p =>
    rw [last, Option.map_some, Option.getD_some] at same
    have answered : p.1 ∈ a.answered := List.mem_map.mpr ⟨p, List.mem_of_getLast? last, rfl⟩
    have sent' := sentAt_of_mem a traced.refines.sound (List.mem_append_left _ (List.mem_append_left _ answered))
    have stamp' : ((sendTimes ls).map Timeval.nanos)[p.1]? = some (sentAt a k).nanos := by
      rw [← traced.sent, List.getElem?_map, sent', Option.map_some, same]
    have inside : k < ((sendTimes ls).map Timeval.nanos).length := (List.getElem?_eq_some_iff.mp stamp).1
    obtain rfl := (List.getElem?_inj inside stamped.distinct).mp (stamp.trans stamp'.symm)
    exact (List.disjoint_of_nodup_append (nodup.of_append_left)) answered (List.mem_of_getElem? found)

def Label.drops : Label → Bool
  | .dropDown _ | .dropUp _ => true
  | _ => false

theorem single_of_does {act : Echo.Action Timeval} (does : l.Does act t) (unduplicated : Unduplicated s l) : act.Single := by
  cases l with
  | arrive i src cmsgs call => rcases does with ⟨rfl, -⟩ | ⟨rfl, -⟩ <;> trivial
  | receive i tv => rcases does with ⟨rfl, -⟩ | ⟨rfl, -⟩ <;> trivial
  | send tv | dropDown i | dropUp i =>
    obtain rfl : act = _ := does
    trivial
  | dupDown i | dupUp i => exact unduplicated.elim

theorem lost_of_drops {act : Echo.Action Timeval} (stepped : Echo.Stepped a act b) (does : l.Does act t)
    (drops : l.drops = true) : a.lost act ≠ [] := by
  cases l with
  | dropDown i =>
    obtain rfl : act = _ := does
    cases stepped with
    | dropDown found => simp [Echo.State.lost, found]
  | dropUp i =>
    obtain rfl : act = _ := does
    cases stepped with
    | dropUp found => simp [Echo.State.lost, found]
  | send tv | arrive i src cmsgs call | receive i tv | dupDown i | dupUp i => cases drops

/-- A run without copies: every number is there once or lost. -/
structure Single (s : Sys c) (a : Echo.State Timeval) (losses : List Nat) (ls : List Label) : Prop where
  traced : Traced s a ls
  accounted : a.Accounted losses
  lossless : losses = [] → ∀ l ∈ ls, l.drops = false
  steadfast : Stamped ls → s.main.status ≠ .exited

theorem single_step {losses : List Nat} (single : Single s a losses ls) (unduplicated : Unduplicated s l)
    (taken : s.step l = some t) : ∃ act b, Echo.Stepped a act b ∧ l.Does act t ∧ Single t b (losses ++ a.lost act) (ls ++ [l]) := by
  obtain ⟨act, b, stepped, traced, does⟩ := traced_step single.traced taken
  refine ⟨act, b, stepped, does, traced, Echo.accounted_step single.accounted (single_of_does does unduplicated) stepped,
    fun none l' member => ?_, fun stamped => ?_⟩
  · obtain ⟨none, kept⟩ := List.append_eq_nil_iff.mp none
    rcases List.mem_append.mp member with member | last
    · exact single.lossless none l' member
    · rw [List.mem_singleton.mp last]
      by_contra drops
      exact lost_of_drops stepped does (by simpa using drops) kept
  · by_cases takes : l.IsReceive
    · cases l with
      | receive i tv =>
        exact not_exited_of_receive single.traced (Echo.nodup_of_accounted single.accounted) (stamped_of_snoc stamped) taken
      | send tv | arrive i src cmsgs call | dropDown i | dropUp i | dupDown i | dupUp i => exact takes.elim
    · rw [main_of_step taken takes]
      exact single.steadfast (stamped_of_snoc stamped)

theorem single_start (memory : Rx.Latencies c.receiver.entries) (buf : List Byte) :
    Single (Sys.start c memory buf) .start [] [] := by
  refine ⟨traced_start memory buf, Echo.accounted_start, fun _ => List.forall_mem_nil _, fun _ => ?_⟩
  simp only [Sys.start, RefSender.Configuration.enter]
  split <;> simp

end Mdelay.Reference
