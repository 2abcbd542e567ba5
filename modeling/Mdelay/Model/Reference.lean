import Mdelay.Model.Frame
import Mdelay.Model.Rx

/-!
# The reference measurement

The reference sender with its thread, the reference receiver that broadcasts every packet back, and the network
between them, both programs in UDP mode.
-/

namespace Mdelay
open ByteOrder

namespace RefSender

/-! ### main of the reference sender -/

inductive Recvfrom where
  | error
  | message (bytes : List Byte)

/-- The receive loop of `main`; `buf` and what was received last stay from one turn to the next. -/
structure Main where
  status : LoopStatus
  i : Nat
  buf : List Byte
  previousReceivedTimestamp : BitVec 64
  latencyNumbers : List (BitVec 64)

def Configuration.enter (cfg : Configuration) (buf : List Byte) : Main where
  status := if 0 < cfg.cfgMaxPackets.toNat then .running else .left
  i := 0
  buf := buf
  previousReceivedTimestamp := 0
  latencyNumbers := []

/-- One turn; `tv` is what `gettimeofday` returns. The exit is the one that prints "Unlikely". -/
def Configuration.turn (e : Endian) (cfg : Configuration) (r : Recvfrom) (tv : Timeval) (x : Main) : Option Main :=
  if x.status = .running then
    let buf :=
      match r with
      | .error => x.buf
      | .message bytes => memcpy x.buf (bytes.take udpPayloadSize)
    let timestampNanos := tv.nanos
    let mdelayhdr := Mdelayhdr.ofBytes e buf
    let receivedTimestamp := ntoh64 e mdelayhdr.t1
    if x.previousReceivedTimestamp = receivedTimestamp then some { x with status := .exited, buf := buf }
    else
      some {
        status := if x.i + 1 < cfg.cfgMaxPackets.toNat then .running else .left
        i := x.i + 1
        buf := buf
        previousReceivedTimestamp := receivedTimestamp
        latencyNumbers := x.latencyNumbers ++ [timestampNanos - receivedTimestamp] }
  else none

/-- The contents of `end_to_end_latency.txt`. -/
def Main.file (x : Main) : List Char := (x.latencyNumbers.map fprintfLu).flatten

end RefSender

namespace Reference

/-! ### The closed system -/

structure Setup where
  sender : RefSender.Configuration
  receiver : Rx.Configuration
  senderEndian : Endian
  receiverEndian : Endian

/-- `down` are the frames on their way to the receiver, `up` the datagrams on their way back. -/
structure Sys (c : Setup) where
  thread : RefSender.SendPackets
  down : List (List Byte)
  rx : Rx.Loop c.receiver.entries
  up : List (List Byte)
  main : RefSender.Main

/-- `arrive` takes the rest of a call of `do_recv` from `call`, whose message is the one that arrives. -/
inductive Label where
  | send (tv : Timeval)
  | arrive (i : Nat) (src : SockaddrIn) (cmsgs : List Cmsghdr) (call : Rx.Call)
  | receive (i : Nat) (tv : Timeval)
  | dropDown (i : Nat)
  | dropUp (i : Nat)
  | dupDown (i : Nat)
  | dupUp (i : Nat)

variable {c : Setup}

def Sys.start (c : Setup) (memory : Rx.Latencies c.receiver.entries) (buf : List Byte) : Sys c where
  thread := RefSender.SendPackets.enter c.senderEndian
  down := []
  rx := Rx.Loop.enter memory
  up := []
  main := c.sender.enter buf

/-- The datagram a frame brings to the receiver's port. -/
def Setup.accepts (c : Setup) (frame : List Byte) : Option (List Byte) :=
  (UdpDatagram.ofFrame frame).bind fun datagram =>
    if datagram.dest = c.receiver.cfgPort.toNat then some datagram.data else none

/-- An exit of `main` ends the thread too. -/
def Sys.step (s : Sys c) : Label → Option (Sys c)
  | .send tv =>
    if s.thread.i < c.sender.cfgMaxPackets.toNat ∧ s.main.status ≠ .exited then
      let thread := s.thread.iterate c.senderEndian tv
      some { s with thread := thread, down := s.down ++ [thread.buffer] }
    else none
  | .arrive i src cmsgs call =>
    (s.down[i]?.bind c.accepts).bind fun data =>
      (c.receiver.turn c.receiverEndian s.rx { call with recvmsg := .message data src cmsgs }).map fun rx =>
        { s with
          down := s.down.eraseIdx i
          rx := rx
          up := s.up ++ (rx.packets.drop s.rx.packets.length).map Rx.Packet.datagram }
  | .receive i tv =>
    s.up[i]?.bind fun bytes =>
      (c.sender.turn c.senderEndian (.message bytes) tv s.main).map fun main =>
        { s with up := s.up.eraseIdx i, main := main }
  | .dropDown i => if i < s.down.length then some { s with down := s.down.eraseIdx i } else none
  | .dropUp i => if i < s.up.length then some { s with up := s.up.eraseIdx i } else none
  | .dupDown i => s.down[i]?.map fun frame => { s with down := s.down ++ [frame] }
  | .dupUp i => s.up[i]?.map fun bytes => { s with up := s.up ++ [bytes] }

/-! ### What a step does -/

variable {s t : Sys c}

theorem step_send {tv : Timeval} : s.step (.send tv) = some t ↔
    (s.thread.i < c.sender.cfgMaxPackets.toNat ∧ s.main.status ≠ .exited) ∧
      { s with
        thread := s.thread.iterate c.senderEndian tv
        down := s.down ++ [(s.thread.iterate c.senderEndian tv).buffer] } = t := by
  by_cases permitted : s.thread.i < c.sender.cfgMaxPackets.toNat ∧ s.main.status ≠ .exited <;>
    simp [Sys.step, permitted]

theorem step_arrive {i : Nat} {src : SockaddrIn} {cmsgs : List Cmsghdr} {call : Rx.Call} :
    s.step (.arrive i src cmsgs call) = some t ↔
      ∃ frame data rx, s.down[i]? = some frame ∧ c.accepts frame = some data ∧
        c.receiver.turn c.receiverEndian s.rx { call with recvmsg := .message data src cmsgs } = some rx ∧
        { s with
          down := s.down.eraseIdx i
          rx := rx
          up := s.up ++ (rx.packets.drop s.rx.packets.length).map Rx.Packet.datagram } = t := by
  simp only [Sys.step, Option.bind_eq_some_iff, Option.map_eq_some_iff]
  constructor
  · rintro ⟨data, ⟨frame, found, accepted⟩, rx, turned, same⟩
    exact ⟨frame, data, rx, found, accepted, turned, same⟩
  · rintro ⟨frame, data, rx, found, accepted, turned, same⟩
    exact ⟨data, ⟨frame, found, accepted⟩, rx, turned, same⟩

theorem step_receive {i : Nat} {tv : Timeval} : s.step (.receive i tv) = some t ↔
    ∃ bytes main, s.up[i]? = some bytes ∧ c.sender.turn c.senderEndian (.message bytes) tv s.main = some main ∧
      { s with up := s.up.eraseIdx i, main := main } = t := by
  simp only [Sys.step, Option.bind_eq_some_iff, Option.map_eq_some_iff]
  exact exists_congr fun bytes => by rw [← exists_and_left]

theorem step_dropDown {i : Nat} : s.step (.dropDown i) = some t ↔
    ∃ frame, s.down[i]? = some frame ∧ { s with down := s.down.eraseIdx i } = t := by
  by_cases inside : i < s.down.length <;> simp [Sys.step, inside]

theorem step_dropUp {i : Nat} : s.step (.dropUp i) = some t ↔
    ∃ bytes, s.up[i]? = some bytes ∧ { s with up := s.up.eraseIdx i } = t := by
  by_cases inside : i < s.up.length <;> simp [Sys.step, inside]

theorem step_dupDown {i : Nat} : s.step (.dupDown i) = some t ↔
    ∃ frame, s.down[i]? = some frame ∧ { s with down := s.down ++ [frame] } = t := by
  simp [Sys.step]

theorem step_dupUp {i : Nat} : s.step (.dupUp i) = some t ↔
    ∃ bytes, s.up[i]? = some bytes ∧ { s with up := s.up ++ [bytes] } = t := by
  simp [Sys.step]

/-! ### Schedules -/

/-- The network copies nothing. -/
def Unduplicated (_ : Sys c) : Label → Prop
  | .dupDown _ | .dupUp _ => False
  | _ => True

/-- The network loses and copies nothing. -/
def Lossless (_ : Sys c) : Label → Prop
  | .send _ | .arrive .. | .receive .. => True
  | _ => False

/-- The network loses and copies nothing and keeps both directions in order. -/
def Ordered (_ : Sys c) : Label → Prop
  | .send _ => True
  | .arrive i _ _ _ | .receive i _ => i = 0
  | _ => False

instance (s : Sys c) : (l : Label) → Decidable (Unduplicated s l)
  | .dupDown _ | .dupUp _ => .isFalse id
  | .send _ | .arrive .. | .receive .. | .dropDown _ | .dropUp _ => .isTrue trivial

instance (s : Sys c) : (l : Label) → Decidable (Lossless s l)
  | .send _ | .arrive .. | .receive .. => .isTrue trivial
  | .dropDown _ | .dropUp _ | .dupDown _ | .dupUp _ => .isFalse id

instance (s : Sys c) : (l : Label) → Decidable (Ordered s l)
  | .send _ => .isTrue trivial
  | .arrive i _ _ _ | .receive i _ => inferInstanceAs (Decidable (i = 0))
  | .dropDown _ | .dropUp _ | .dupDown _ | .dupUp _ => .isFalse id

/-- What `gettimeofday` returned to the thread. -/
def sendTimes (ls : List Label) : List Timeval :=
  ls.filterMap fun
    | .send tv => some tv
    | _ => none

/-- What `gettimeofday` returned to `main`. -/
def receiveTimes (ls : List Label) : List Timeval :=
  ls.filterMap fun
    | .receive _ tv => some tv
    | _ => none

end Reference

end Mdelay
