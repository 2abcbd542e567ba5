import Mdelay.Library.Checksum
import Mdelay.Model.Socket

/-!
# send_packets of the reference sender

The thread writes Ethernet frames to a packet socket. It fills in the headers of Ethernet, IPv4 and UDP by
hand, once, and copies a message header behind them for every packet.
-/

namespace Mdelay
open ByteOrder

/-! ### Headers as they lie in memory -/

structure EtherHeader where
  etherDhost : List Byte
  etherShost : List Byte
  etherType : BitVec 16

def EtherHeader.bytes (e : Endian) (h : EtherHeader) : List Byte :=
  h.etherDhost ++ h.etherShost ++ e.store 2 h.etherType.toNat

/-- `version` and `ihl` are bit fields, declared for each byte order so that the version is the high half. -/
structure Iphdr where
  version : BitVec 4
  ihl : BitVec 4
  tos : BitVec 8
  totLen : BitVec 16
  id : BitVec 16
  fragOff : BitVec 16
  ttl : BitVec 8
  protocol : BitVec 8
  check : BitVec 16
  saddr : BitVec 32
  daddr : BitVec 32

def Iphdr.bytes (e : Endian) (h : Iphdr) : List Byte :=
  [h.version ++ h.ihl, h.tos] ++ e.store 2 h.totLen.toNat ++ e.store 2 h.id.toNat ++ e.store 2 h.fragOff.toNat ++
    [h.ttl, h.protocol] ++ e.store 2 h.check.toNat ++ e.store 4 h.saddr.toNat ++ e.store 4 h.daddr.toNat

structure Udphdr where
  source : BitVec 16
  dest : BitVec 16
  len : BitVec 16
  check : BitVec 16

def Udphdr.bytes (e : Endian) (h : Udphdr) : List Byte :=
  e.store 2 h.source.toNat ++ e.store 2 h.dest.toNat ++ e.store 2 h.len.toNat ++ e.store 2 h.check.toNat

@[simp] theorem Iphdr.length_bytes (e : Endian) (h : Iphdr) : (h.bytes e).length = 20 := by simp [Iphdr.bytes]

@[simp] theorem Udphdr.length_bytes (e : Endian) (h : Udphdr) : (h.bytes e).length = 8 := by simp [Udphdr.bytes]

/-- The loop over the words of the header and the two additions of the carry. -/
def ipChecksum (e : Endian) (ipHeader : List Byte) : BitVec 16 :=
  let ipChecksum : BitVec 32 := (Checksum.words e ipHeader).foldl 
    (fun ipChecksum word => ipChecksum + BitVec.ofNat 32 word) 0
  let ipChecksum := (ipChecksum >>> 16) + (ipChecksum &&& 0xFFFF)
  let ipChecksum := ipChecksum + (ipChecksum >>> 16)
  (~~~ipChecksum).setWidth 16

def Iphdr.checked (e : Endian) (h : Iphdr) : Iphdr :=
  { h with check := ipChecksum e ({ h with check := 0 }.bytes e) }

/-- `memcpy(buffer + off, src, n)` -/
def memcpyAt (buffer : List Byte) (off : Nat) (src : List Byte) : List Byte :=
  buffer.take off ++ memcpy (buffer.drop off) src

namespace RefSender

def packetLen : Nat := 1024
def udpPayloadSize : Nat := 900

def destMac : List Byte := [0xff, 0xff, 0xff, 0xff, 0xff, 0xff]
def srcMac : List Byte := [0x00, 0x1B, 0x2C, 0x3D, 0x4E, 0x5F]

def ethHeader (e : Endian) : EtherHeader := ⟨destMac, srcMac, htons e 0x0800⟩

def ipHeader (e : Endian) : Iphdr :=
  Iphdr.checked e {
    version := 4
    ihl := 5
    tos := 0
    totLen := htons e (BitVec.ofNat 16 (20 + 8 + udpPayloadSize))
    id := htons e 54321
    fragOff := 0
    ttl := 64
    protocol := 17
    check := 0
    saddr := inetAddr e ['0', '.', '0', '.', '0', '.', '0']
    daddr := inetAddr e ['0', '.', '0', '.', '0', '.', '0'] }

/-- The destination port is not the one of the command line. -/
def udpHeader (e : Endian) : Udphdr :=
  ⟨htons e 1336, htons e 1337, htons e (BitVec.ofNat 16 (udpPayloadSize + 8)), 0⟩

def initialBuffer (e : Endian) : List Byte :=
  let buffer := List.replicate packetLen 0
  let buffer := memcpyAt buffer 0 ((ethHeader e).bytes e)
  let buffer := memcpyAt buffer 14 ((ipHeader e).bytes e)
  let buffer := memcpyAt buffer 34 ((udpHeader e).bytes e)
  memcpyAt buffer 42 (List.replicate udpPayloadSize 0x41)

/-- The loop of `send_packets`. -/
structure SendPackets where
  i : Nat
  buffer : List Byte
  mdelayhdr : Mdelayhdr

def SendPackets.enter (e : Endian) : SendPackets := ⟨0, initialBuffer e, .zero⟩

/-- One iteration; `tv` is what `gettimeofday` returns, and the buffer afterwards what `sendto` is given. -/
def SendPackets.iterate (e : Endian) (tv : Timeval) (x : SendPackets) : SendPackets :=
  let mdelayhdr := { x.mdelayhdr with seq := htonl e (BitVec.ofNat 32 x.i), t1 := hton64 e tv.nanos }
  ⟨x.i + 1, memcpyAt x.buffer 42 (mdelayhdr.bytes e), mdelayhdr⟩

end RefSender

/-! ### Receiving a frame -/

/-- A UDP datagram, its ports as numbers. -/
structure UdpDatagram where
  source : Nat
  dest : Nat
  data : List Byte
  deriving DecidableEq

/-- What IPv4 and UDP take out of an Ethernet frame. The datagram must be in one piece, and without a
checksum of its own. -/
def UdpDatagram.ofFrame (frame : List Byte) : Option UdpDatagram :=
  let ip := frame.drop 14
  let ihl := 4 * (ofBeBytes (slice 0 1 ip) % 16)
  let totLen := ofBeBytes (slice 2 2 ip)
  let udp := (ip.take totLen).drop ihl
  let len := ofBeBytes (slice 4 2 udp)
  if slice 12 2 frame = [0x08, 0x00] ∧ ofBeBytes (slice 0 1 ip) / 16 = 4 ∧ 20 ≤ ihl ∧ ihl ≤ totLen ∧ totLen ≤ ip.length ∧
      Checksum.Valid .big (ip.take ihl) ∧ ofBeBytes (slice 6 2 ip) % 0x4000 = 0 ∧ slice 9 1 ip = [17] ∧
      8 ≤ len ∧ len ≤ udp.length ∧ slice 6 2 udp = [0, 0] then
    some ⟨ofBeBytes (slice 0 2 udp), ofBeBytes (slice 2 2 udp), (udp.take len).drop 8⟩
  else none

end Mdelay
