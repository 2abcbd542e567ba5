import Mdelay.Library.ByteOrder

/-!
# Message header

`struct mdelayhdr`, its byte layout and the conversions between host and network order.
-/

namespace Mdelay
open ByteOrder

inductive PktType where
  | delayReq | delayReqFollowUp | delayResp | delayRespFollowUp
  deriving DecidableEq

def PktType.code : PktType → BitVec 8
  | .delayReq => 0
  | .delayReqFollowUp => 1
  | .delayResp => 2
  | .delayRespFollowUp => 3

/-- The packet type of a `type` byte. Every other byte reaches the `default` branch of a switch. -/
def PktType.ofCode (type : BitVec 8) : Option PktType :=
  if type = 0 then some .delayReq
  else if type = 1 then some .delayReqFollowUp
  else if type = 2 then some .delayResp
  else if type = 3 then some .delayRespFollowUp
  else none

@[simp] theorem PktType.ofCode_code (p : PktType) : PktType.ofCode p.code = some p := by
  cases p <;> rfl

theorem PktType.ofCode_eq_some {type : BitVec 8} {p : PktType} :
    PktType.ofCode type = some p ↔ type = p.code := by
  constructor
  · intro found
    unfold PktType.ofCode at found
    split_ifs at found with h0 h1 h2 h3
    all_goals cases found; assumption
  · rintro rfl
    exact PktType.ofCode_code p

/-! ### Byte order conversions -/

def htons (e : Endian) (value : BitVec 16) : BitVec 16 :=
  match e with
  | .little => BitVec.ofNat 16 (swapBytes 2 value.toNat)
  | .big => value

def ntohs (e : Endian) (value : BitVec 16) : BitVec 16 := htons e value

def htonl (e : Endian) (value : BitVec 32) : BitVec 32 :=
  match e with
  | .little => BitVec.ofNat 32 (swapBytes 4 value.toNat)
  | .big => value

def ntohl (e : Endian) (value : BitVec 32) : BitVec 32 := htonl e value

def hton64 (e : Endian) (value : BitVec 64) : BitVec 64 :=
  if htonl e 1 ≠ 1 then
    ((htonl e ((value &&& 0xFFFFFFFF).setWidth 32)).setWidth 64 <<< 32) |||
      (htonl e ((value >>> 32).setWidth 32)).setWidth 64
  else
    value

def ntoh64 (e : Endian) (value : BitVec 64) : BitVec 64 :=
  if ntohl e 1 ≠ 1 then
    ((ntohl e ((value &&& 0xFFFFFFFF).setWidth 32)).setWidth 64 <<< 32) |||
      (ntohl e ((value >>> 32).setWidth 32)).setWidth 64
  else
    value

/-! ### struct mdelayhdr -/

/-- The struct as it lies in memory: multi-byte fields hold what was stored into them, the three
bytes between `type` and `t1` are padding. -/
structure Mdelayhdr where
  seq : BitVec 32
  type : BitVec 8
  pad : BitVec 24
  t1 : BitVec 64
  t2 : BitVec 64
  t3 : BitVec 64
  t4 : BitVec 64
  deriving DecidableEq

def sizeofMdelayhdr : Nat := 40

def Mdelayhdr.zero : Mdelayhdr := ⟨0, 0, 0, 0, 0, 0, 0⟩

def Mdelayhdr.bytes (e : Endian) (h : Mdelayhdr) : List Byte :=
  e.store 4 h.seq.toNat ++ [h.type] ++ leBytes 3 h.pad.toNat ++
    e.store 8 h.t1.toNat ++ e.store 8 h.t2.toNat ++ e.store 8 h.t3.toNat ++ e.store 8 h.t4.toNat

def slice (off n : Nat) (bs : List Byte) : List Byte := (bs.drop off).take n

/-- `memcpy(&mdelayhdr, buffer, sizeof(mdelayhdr))` on a host of byte order `e`. -/
def Mdelayhdr.ofBytes (e : Endian) (buffer : List Byte) : Mdelayhdr where
  seq := BitVec.ofNat 32 (e.load (slice 0 4 buffer))
  type := BitVec.ofNat 8 (ofLeBytes (slice 4 1 buffer))
  pad := BitVec.ofNat 24 (ofLeBytes (slice 5 3 buffer))
  t1 := BitVec.ofNat 64 (e.load (slice 8 8 buffer))
  t2 := BitVec.ofNat 64 (e.load (slice 16 8 buffer))
  t3 := BitVec.ofNat 64 (e.load (slice 24 8 buffer))
  t4 := BitVec.ofNat 64 (e.load (slice 32 8 buffer))

def memcpy (dst src : List Byte) : List Byte := src ++ dst.drop src.length

/-- The header in host order: what the sender means and the receiver acts on. -/
structure Header where
  seq : BitVec 32
  type : BitVec 8
  t1 : BitVec 64
  t2 : BitVec 64
  t3 : BitVec 64
  t4 : BitVec 64
  deriving DecidableEq

/-- `htonl` and `hton64` on every field of a struct whose padding is `pad`. -/
def Header.toNetwork (e : Endian) (pad : BitVec 24) (h : Header) : Mdelayhdr where
  seq := htonl e h.seq
  type := h.type
  pad := pad
  t1 := hton64 e h.t1
  t2 := hton64 e h.t2
  t3 := hton64 e h.t3
  t4 := hton64 e h.t4

def Mdelayhdr.toHost (e : Endian) (h : Mdelayhdr) : Header where
  seq := ntohl e h.seq
  type := h.type
  t1 := ntoh64 e h.t1
  t2 := ntoh64 e h.t2
  t3 := ntoh64 e h.t3
  t4 := ntoh64 e h.t4

def decode (e : Endian) (buffer : List Byte) : Header := (Mdelayhdr.ofBytes e buffer).toHost e

/-- The wire format: every field in network order, whatever the host. -/
def Header.wire (h : Header) (pad : BitVec 24) : List Byte :=
  beBytes 4 h.seq.toNat ++ [h.type] ++ leBytes 3 pad.toNat ++
    beBytes 8 h.t1.toNat ++ beBytes 8 h.t2.toNat ++ beBytes 8 h.t3.toNat ++ beBytes 8 h.t4.toNat

@[simp] theorem Header.length_wire (h : Header) (pad : BitVec 24) : (h.wire pad).length = 40 := by
  simp [Header.wire]

@[simp] theorem Mdelayhdr.length_bytes (e : Endian) (h : Mdelayhdr) : (h.bytes e).length = 40 := by
  simp [Mdelayhdr.bytes]

end Mdelay
