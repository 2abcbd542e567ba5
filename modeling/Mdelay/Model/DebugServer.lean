import Mdelay.Library.Text
import Mdelay.Model.Wire

/-!
# debug_server.c

A server that prints the header of every datagram it receives. Its buffer stays from one datagram to the next.
-/

namespace Mdelay.DebugServer
open ByteOrder

def bufferSize : Nat := 1024

structure Server where
  running : Bool
  buffer : List Byte
  printed : List Char

/-- The two lines for a datagram. -/
def report (recvLen : Nat) (h : Header) : List Char :=
  "Packet ".toList ++ Text.signed h.seq.toInt ++ " - ".toList ++ Text.decimal recvLen ++ " bytes type: ".toList ++
    Text.decimal h.type.toNat ++ "\nt1: ".toList ++ Text.decimal h.t1.toNat ++ ", t2: ".toList ++
    Text.decimal h.t2.toNat ++ ", t3: ".toList ++ Text.decimal h.t3.toNat ++ ", t4: ".toList ++
    Text.decimal h.t4.toNat ++ ['\n']

/-- One turn of the loop; `none` is a failed `recvfrom`. -/
def turn (e : Endian) (x : Server) (datagram : Option (List Byte)) : Option Server :=
  if x.running then
    match datagram with
    | none => some { x with running := false }
    | some bytes =>
      let buffer := memcpy x.buffer (bytes.take bufferSize)
      let recvLen := (bytes.take bufferSize).length
      some { x with buffer := buffer, printed := x.printed ++ report recvLen (decode e buffer) }
  else none

end Mdelay.DebugServer
