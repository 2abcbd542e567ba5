import Mdelay.Model.System
import Mdelay.Proofs.Sending

/-!
# The closed system over TCP

What the two programs run over unless they are started with `-u`. One connection, whose two streams
keep every byte in its order but no boundary between messages. The programs are those of UDP mode.
-/

namespace Mdelay
open ByteOrder

/-- What `accept_child` records of the peer. -/
def Slave.acceptChild {cap : Nat} (e : Endian) (cliAddr : SockaddrIn) (s : Slave.State cap) : Slave.State cap :=
  { s with
    remoteIp := true
    ntoaBuffer := inetNtoa e cliAddr.sinAddr
    remotePort := ntohs e cliAddr.sinPort }

namespace Tcp

/-- `stream r` is what the peer of `r` has sent and `r` has not read yet. -/
structure Sys (c : Config) where
  host : (r : Role) → Host (c.program r)
  stream : Role → List Byte
  trace : List Obs

/-- A program moves by itself as it does over UDP, or it returns from its `recvmsg`: with some of the
bytes of the stream, or with 0 once the peer has closed its end and there are no more. -/
inductive Label where
  | move (l : Mdelay.Label)
  | recv (r : Role) (size : Nat) (k : Stack) (cmsgs : List Cmsghdr)
  | eof (r : Role) (k : Stack)

variable {c : Config}

/-- Both programs, with nothing between them. -/
def Sys.hosts (s : Sys c) : Mdelay.Sys c := ⟨s.host, [], s.trace⟩

/-- The bytes that `r` has put into datagrams, in order. -/
def bytesFrom (c : Config) (r : Role) (net : List Datagram) : List Byte :=
  (net.filter fun d => d.src = c.address r).flatMap Datagram.bytes

/-- The process has come to its end, by itself or not, and the kernel has closed its socket. -/
def closed {p : Program} (h : Host p) : Bool := h.finished || !h.alive

/-- The host that a label lets call `sendto`. -/
def sends : Mdelay.Label → Option Role
  | .event r .. | .followUp r .. => some r
  | _ => none

/-- The slave has returned from `accept_child`, the master from `connect`. -/
def Sys.start (c : Config) (var : Role → Int) : Sys c where
  host
    | .master => (Mdelay.Sys.start c var).host .master
    | .slave =>
      let h := (Mdelay.Sys.start c var).host .slave
      { h with loop := { h.loop with st := Slave.acceptChild (c.endian .slave) (c.address .master) h.loop.st } }
  stream _ := []
  trace := []

/-- `recvmsg` on a connected socket leaves `host_address` as it is, and `sendto` ignores the address it
is given. What a `sendto` to a peer that has closed its end does is left out: there is no such step. -/
def Sys.step (s : Sys c) : Label → Option (Sys c)
  | .move l =>
    if ∀ r ∈ sends l, closed (s.host r.peer) = false then
      (s.hosts.step l).map fun t => ⟨t.host, fun r => s.stream r ++ bytesFrom c r.peer t.net, t.trace⟩
    else none
  | .recv r size k cmsgs =>
    match nicTime cmsgs with
    | some nic =>
      if 0 < size ∧ size ≤ payloadSize ∧ size ≤ (s.stream r).length ∧ (s.host r).waits r then
        let bytes := (s.stream r).take size
        let outcome := (c.program r).doRecv k (.message bytes k.hostAddress cmsgs) (s.host r).loop.st
        some ⟨Function.update s.host r ((s.host r).receive outcome),
          Function.update s.stream r ((s.stream r).drop size), s.trace ++ [.of r false bytes nic]⟩
      else none
    | none => none
  | .eof r k =>
    if s.stream r = [] ∧ closed (s.host r.peer) ∧ (s.host r).waits r then
      let outcome := (c.program r).doRecv k (.message [] k.hostAddress []) (s.host r).loop.st
      some { s with host := Function.update s.host r ((s.host r).receive outcome) }
    else none

def Sys.file (s : Sys c) (name : String) : Option (List Char) := s.hosts.file name

/-! ### What a step does -/

variable {s t : Sys c}

theorem step_move {l : Mdelay.Label} : s.step (.move l) = some t ↔
    (∀ r ∈ sends l, closed (s.host r.peer) = false) ∧
      ∃ u, s.hosts.step l = some u ∧ ⟨u.host, fun r => s.stream r ++ bytesFrom c r.peer u.net, u.trace⟩ = t := by
  rw [Sys.step]
  split
  · rename_i opened
    rw [Option.map_eq_some_iff]
    exact ⟨fun moved => ⟨opened, moved⟩, fun moved => moved.2⟩
  · rename_i shut
    refine ⟨fun none => ?_, fun moved => absurd moved.1 shut⟩
    cases none

theorem step_recv {r : Role} {size : Nat} {k : Stack} {cmsgs : List Cmsghdr} :
    s.step (.recv r size k cmsgs) = some t ↔
      ∃ nic, nicTime cmsgs = some nic ∧
        (0 < size ∧ size ≤ payloadSize ∧ size ≤ (s.stream r).length ∧ (s.host r).waits r = true) ∧
        ⟨Function.update s.host r ((s.host r).receive ((c.program r).doRecv k
            (.message ((s.stream r).take size) k.hostAddress cmsgs) (s.host r).loop.st)),
          Function.update s.stream r ((s.stream r).drop size),
          s.trace ++ [.of r false ((s.stream r).take size) nic]⟩ = t := by
  cases read : nicTime cmsgs <;> simp [Sys.step, read]

theorem step_eof {r : Role} {k : Stack} : s.step (.eof r k) = some t ↔
    (s.stream r = [] ∧ closed (s.host r.peer) = true ∧ (s.host r).waits r = true) ∧
      { s with host := Function.update s.host r ((s.host r).receive
          ((c.program r).doRecv k (.message [] k.hostAddress []) (s.host r).loop.st)) } = t := by
  simp [Sys.step]

end Tcp

end Mdelay
