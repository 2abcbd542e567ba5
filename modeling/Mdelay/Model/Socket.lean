import Mdelay.Library.Text
import Mdelay.Model.Wire

/-!
# Sockets

Kernel times, control messages with `retrieve_timestamp`, what `recvmsg` leaves in a `msghdr`, and
IPv4 addresses.
-/

namespace Mdelay
open ByteOrder

/-! ### Times -/

structure Timespec where
  tvSec : BitVec 64
  tvNsec : BitVec 64
  deriving DecidableEq

structure Timeval where
  tvSec : BitVec 64
  tvUsec : BitVec 64
  deriving DecidableEq

def Timespec.nanos (ts : Timespec) : BitVec 64 := ts.tvSec * 1000000000 + ts.tvNsec

def Timeval.nanos (tv : Timeval) : BitVec 64 := tv.tvSec * 1000000000 + tv.tvUsec * 1000

def Timespec.value (ts : Timespec) : Int := ts.tvSec.toInt * 1000000000 + ts.tvNsec.toInt

theorem Timespec.nanos_eq (ts : Timespec) : ts.nanos = BitVec.ofInt 64 ts.value := by
  rw [value, BitVec.ofInt_add, BitVec.ofInt_mul, BitVec.ofInt_toInt, BitVec.ofInt_toInt]
  rfl

/-! ### Control messages -/

def solSocket : Nat := 1
def soTimestampns : Nat := 35
def soTimestamping : Nat := 37

/-- A control message; `data` is the array of timespecs its `CMSG_DATA` holds, if it holds any. -/
structure Cmsghdr where
  cmsgLevel : Nat
  cmsgType : Nat
  dataLen : Nat
  data : List Timespec
  deriving DecidableEq

def sizeofCmsghdr : Nat := 16

def Cmsghdr.space (c : Cmsghdr) : Nat := sizeofCmsghdr + (c.dataLen + 7) / 8 * 8

/-- The pointer returned is the array it points to, `none` for NULL. -/
def retrieveTimestamp (control : List Cmsghdr) : Option (List Timespec) :=
  control.foldl (fun ts cmsg =>
    if cmsg.cmsgLevel ≠ solSocket then ts
    else if cmsg.cmsgType = soTimestampns then some cmsg.data
    else if cmsg.cmsgType = soTimestamping then some cmsg.data
    else ts) none

/-- The control messages the kernel writes into `room` bytes. One that does not fit is cut short
and ends the list. -/
def putCmsgs : Nat → List Cmsghdr → List Cmsghdr
  | _, [] => []
  | room, c :: cs =>
    if room < sizeofCmsghdr then []
    else if sizeofCmsghdr + c.dataLen ≤ room then c :: putCmsgs (room - c.space) cs
    else [{ c with dataLen := room - sizeofCmsghdr, data := c.data.take ((room - sizeofCmsghdr) / 16) }]

def cmsgsLen : Nat → List Cmsghdr → Nat
  | _, [] => 0
  | room, c :: cs =>
    if room < sizeofCmsghdr then 0
    else if sizeofCmsghdr + c.dataLen ≤ room then min room c.space + cmsgsLen (room - c.space) cs
    else room

structure Msghdr where
  control : List Cmsghdr
  msgControllen : Nat
  deriving DecidableEq

def Msghdr.recv (msg : Msghdr) (cmsgs : List Cmsghdr) : Msghdr :=
  ⟨putCmsgs msg.msgControllen cmsgs, cmsgsLen msg.msgControllen cmsgs⟩

/-! ### Addresses -/

/-- `struct sockaddr_in`, both fields as stored, in network order. -/
structure SockaddrIn where
  sinAddr : BitVec 32
  sinPort : BitVec 16
  deriving DecidableEq

def inetNtoa (e : Endian) (addr : BitVec 32) : List Char :=
  ['.'].intercalate ((e.store 4 addr.toNat).map fun b => Text.decimal b.toNat)

/-- The dotted form of four decimal numbers; `INADDR_NONE` for anything else. -/
def inetAddr (e : Endian) (cp : List Char) : BitVec 32 :=
  match (cp.splitOn '.').mapM Text.readDecimal with
  | some parts =>
    if parts.length = 4 ∧ parts.all (· < 256) then
      BitVec.ofNat 32 (e.load (parts.map (BitVec.ofNat 8)))
    else 0xFFFFFFFF
  | none => 0xFFFFFFFF

theorem ntohs_htons (e : Endian) (port : BitVec 16) : htons e (ntohs e port) = port := by
  cases e
  · have small := swapBytes_lt 2 port.toNat
    have fits := port.isLt
    apply BitVec.eq_of_toNat_eq
    simp only [ntohs, htons, BitVec.toNat_ofNat]
    rw [Nat.mod_eq_of_lt (a := swapBytes 2 port.toNat) (by omega), swapBytes_swapBytes]
    omega
  · rfl

theorem inetAddr_inetNtoa (e : Endian) (addr : BitVec 32) : inetAddr e (inetNtoa e addr) = addr := by
  have fits := addr.isLt
  have split : (inetNtoa e addr).splitOn '.' =
      (e.store 4 addr.toNat).map fun b => Text.decimal b.toNat := by
    apply List.splitOn_intercalate
    · intro part member
      obtain ⟨b, -, rfl⟩ := List.mem_map.mp member
      exact Text.not_mem_decimal (by decide) _
    · have size := length_store e 4 addr.toNat
      intro empty
      rw [List.map_eq_nil_iff] at empty
      rw [empty] at size
      cases size
  have read : ((e.store 4 addr.toNat).map fun b => Text.decimal b.toNat).mapM Text.readDecimal =
      some ((e.store 4 addr.toNat).map BitVec.toNat) := by
    generalize e.store 4 addr.toNat = bs
    induction bs with
    | nil => rfl
    | cons b bs ih => simp [List.mapM_cons, Text.readDecimal_decimal, ih]
  have small : ((e.store 4 addr.toNat).map BitVec.toNat).all (· < 256) = true := by
    simp only [List.all_map, List.all_eq_true, Function.comp_apply, decide_eq_true_eq]
    exact fun b _ => b.isLt
  have back : ((e.store 4 addr.toNat).map BitVec.toNat).map (BitVec.ofNat 8) = e.store 4 addr.toNat := by
    rw [List.map_map]
    exact List.map_id'' (fun b => by simp) _
  rw [inetAddr, split, read]
  dsimp only
  rw [if_pos ⟨by simp, small⟩, back, load_store]
  apply BitVec.eq_of_toNat_eq
  rw [BitVec.toNat_ofNat]
  omega

end Mdelay
