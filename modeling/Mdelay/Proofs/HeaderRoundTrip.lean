import Mdelay.Model.Wire

/-!
# The header between hosts of any byte order

A host stores a converted field as network-order bytes and loads it back from them, so neither
host's byte order shows on the wire or in what is decoded.
-/

namespace Mdelay
open ByteOrder

theorem toNat_htonl_little (v : BitVec 32) : (htonl .little v).toNat = swapBytes 4 v.toNat := by
  have small := swapBytes_lt 4 v.toNat
  rw [htonl, BitVec.toNat_ofNat]
  exact Nat.mod_eq_of_lt (by omega)

theorem toNat_join (a b : BitVec 32) :
    (a.setWidth 64 <<< 32 ||| b.setWidth 64).toNat = 2 ^ 32 * a.toNat + b.toNat := by
  have ha := a.isLt
  have hb := b.isLt
  have shifted : (a.setWidth 64 <<< 32).toNat = 2 ^ 32 * a.toNat := by
    rw [BitVec.toNat_shiftLeft, BitVec.toNat_setWidth_of_le (by decide), Nat.shiftLeft_eq]
    omega
  rw [BitVec.toNat_or, shifted, BitVec.toNat_setWidth_of_le (by decide), Nat.two_pow_add_eq_or_of_lt hb]

theorem toNat_low (v : BitVec 64) : ((v &&& 0xFFFFFFFF).setWidth 32).toNat = v.toNat % 256 ^ 4 := by
  have masked : v.toNat &&& 4294967295 = v.toNat % 2 ^ 32 := Nat.and_two_pow_sub_one_eq_mod _ 32
  have word : (0xFFFFFFFF : BitVec 64).toNat = 4294967295 := rfl
  rw [BitVec.toNat_setWidth, BitVec.toNat_and, word, masked]
  omega

theorem toNat_high (v : BitVec 64) : ((v >>> 32).setWidth 32).toNat = v.toNat / 256 ^ 4 := by
  have small := v.isLt
  rw [BitVec.toNat_setWidth, BitVec.toNat_ushiftRight, Nat.shiftRight_eq_div_pow]
  omega

theorem toNat_hton64_little (v : BitVec 64) : (hton64 .little v).toNat = swapBytes 8 v.toNat := by
  have taken : htonl .little 1 ≠ 1 := by decide
  rw [hton64, if_pos taken, toNat_join, toNat_htonl_little, toNat_htonl_little, toNat_low, toNat_high,
    swapBytes_mod, swapBytes_add 4 4]
  omega

theorem hton64_big (v : BitVec 64) : hton64 .big v = v := by
  simp [hton64, htonl]

theorem store_htonl (e : Endian) (v : BitVec 32) :
    e.store 4 (htonl e v).toNat = beBytes 4 v.toNat := by
  cases e
  · rw [Endian.store, toNat_htonl_little, leBytes_swapBytes]
  · rfl

theorem store_hton64 (e : Endian) (v : BitVec 64) :
    e.store 8 (hton64 e v).toNat = beBytes 8 v.toNat := by
  cases e
  · rw [Endian.store, toNat_hton64_little, leBytes_swapBytes]
  · rw [Endian.store, hton64_big]

theorem ntohl_load (e : Endian) {bs : List Byte} (size : bs.length = 4) :
    ntohl e (BitVec.ofNat 32 (e.load bs)) = BitVec.ofNat 32 (ofBeBytes bs) := by
  cases e
  · have small := ofLeBytes_lt bs
    rw [size] at small
    apply BitVec.eq_of_toNat_eq
    rw [ntohl, toNat_htonl_little, Endian.load, BitVec.toNat_ofNat, Nat.mod_eq_of_lt (by omega),
      swapBytes_load size, BitVec.toNat_ofNat, Nat.mod_eq_of_lt]
    have := ofBeBytes_lt bs
    rw [size] at this
    omega
  · rfl

theorem ntoh64_eq_hton64 : ntoh64 = hton64 := rfl

theorem ntoh64_load (e : Endian) {bs : List Byte} (size : bs.length = 8) :
    ntoh64 e (BitVec.ofNat 64 (e.load bs)) = BitVec.ofNat 64 (ofBeBytes bs) := by
  rw [ntoh64_eq_hton64]
  cases e
  · have small := ofLeBytes_lt bs
    rw [size] at small
    apply BitVec.eq_of_toNat_eq
    rw [toNat_hton64_little, Endian.load, BitVec.toNat_ofNat, Nat.mod_eq_of_lt (by omega),
      swapBytes_load size, BitVec.toNat_ofNat, Nat.mod_eq_of_lt]
    have := ofBeBytes_lt bs
    rw [size] at this
    omega
  · rw [hton64_big, Endian.load]

/-! ### Encoding and decoding -/

theorem bytes_toNetwork (e : Endian) (pad : BitVec 24) (h : Header) :
    (h.toNetwork e pad).bytes e = h.wire pad := by
  simp only [Mdelayhdr.bytes, Header.toNetwork, Header.wire, store_htonl, store_hton64]

theorem length_slice {off n : Nat} {bs : List Byte} (inside : off + n ≤ bs.length) :
    (slice off n bs).length = n := by
  rw [slice, List.length_take, List.length_drop]
  omega

theorem decode_endian (e : Endian) {buffer : List Byte} (full : 40 ≤ buffer.length) :
    decode e buffer = decode .big buffer := by
  have word (off : Nat) (inside : off + 8 ≤ 40) :
      ntoh64 e (BitVec.ofNat 64 (e.load (slice off 8 buffer))) =
        ntoh64 .big (BitVec.ofNat 64 (Endian.load .big (slice off 8 buffer))) := by
    have size : (slice off 8 buffer).length = 8 := length_slice (by omega)
    rw [ntoh64_load e size, ntoh64_load .big size]
  have seq : ntohl e (BitVec.ofNat 32 (e.load (slice 0 4 buffer))) =
      ntohl .big (BitVec.ofNat 32 (Endian.load .big (slice 0 4 buffer))) := by
    have size : (slice 0 4 buffer).length = 4 := length_slice (by omega)
    rw [ntohl_load e size, ntohl_load .big size]
  simp only [decode, Mdelayhdr.ofBytes, Mdelayhdr.toHost, seq, word 8 (by decide),
    word 16 (by decide), word 24 (by decide), word 32 (by decide)]

theorem ofBeBytes_field {w n : Nat} (v : BitVec w) (width : 2 ^ w = 256 ^ n) :
    BitVec.ofNat w (ofBeBytes (beBytes n v.toNat)) = v := by
  rw [ofBeBytes_beBytes, ← width, Nat.mod_eq_of_lt v.isLt, BitVec.ofNat_toNat, BitVec.setWidth_eq]

theorem slice_skip {xs ys : List Byte} {off n : Nat} (past : xs.length ≤ off) :
    slice off n (xs ++ ys) = slice (off - xs.length) n ys := by
  rw [slice, List.drop_append, List.drop_eq_nil_of_le past, List.nil_append, slice]

theorem slice_front {xs ys : List Byte} {n : Nat} (size : xs.length = n) : slice 0 n (xs ++ ys) = xs := by
  rw [slice, List.drop_zero, ← size, List.take_left]

theorem decode_wire (e : Endian) (h : Header) (pad : BitVec 24) (rest : List Byte) :
    decode e (h.wire pad ++ rest) = h := by
  rw [decode_endian e (by simp)]
  simp only [decode, Mdelayhdr.ofBytes, Mdelayhdr.toHost, Header.wire, List.append_assoc]
  -- Every field lies behind the ones before it, whose lengths are fixed.
  simp +arith only [slice_skip, slice_front, length_beBytes, length_leBytes, List.length_singleton,
    Nat.reduceLeDiff, Nat.reduceSub, ntohl_load .big (length_beBytes 4 _), ntoh64_load .big (length_beBytes 8 _)]
  simp [ofBeBytes_field, ofLeBytes]

/-- A header copied over any payload decodes to itself on a host of any byte order, and its bytes
on the wire do not depend on the sender's. -/
theorem header_round_trip (sender receiver : Endian) (h : Header) (pad : BitVec 24) (payload : List Byte)
    (room : sizeofMdelayhdr ≤ payload.length) :
    let sent := memcpy payload ((h.toNetwork sender pad).bytes sender)
    sent.length = payload.length ∧
      sent.take sizeofMdelayhdr = h.wire pad ∧
      sent.drop sizeofMdelayhdr = payload.drop sizeofMdelayhdr ∧
      decode receiver (sent.take sizeofMdelayhdr) = h := by
  intro sent
  have split : sent = h.wire pad ++ payload.drop 40 := by
    simp only [sent, memcpy, bytes_toNetwork, Header.length_wire]
  have front : sent.take 40 = h.wire pad := by
    rw [split, ← Header.length_wire h pad, List.take_left]
  have whole := decode_wire receiver h pad []
  rw [List.append_nil] at whole
  refine ⟨?_, front, ?_, by rw [sizeofMdelayhdr, front, whole]⟩
  · rw [split, List.length_append, Header.length_wire, List.length_drop]
    exact Nat.add_sub_cancel' room
  · rw [split, sizeofMdelayhdr, List.drop_append, List.drop_eq_nil_of_le (by simp), Header.length_wire]
    rfl

theorem header_round_trip_unequal_hosts :
    let h : Header := ⟨0x01020304, 3, 0x1112131415161718, 1, 2, 0xFFFFFFFF00000000⟩
    let sent := memcpy (List.replicate 890 0x44) ((h.toNetwork .little 0).bytes .little)
    sent.length = 890 ∧ sent.take sizeofMdelayhdr = h.wire 0 ∧
      sent.drop sizeofMdelayhdr = List.replicate 850 0x44 ∧
      decode .big (sent.take sizeofMdelayhdr) = h := by
  have trip := header_round_trip .little .big
    ⟨0x01020304, 3, 0x1112131415161718, 1, 2, 0xFFFFFFFF00000000⟩ 0 (List.replicate 890 0x44)
    (by rw [List.length_replicate]; decide)
  simp only [List.length_replicate, List.drop_replicate] at trip
  exact trip

end Mdelay
