import Mdelay.Model.Frame
import Mdelay.Proofs.Sending

/-!
# The frames of the reference sender

A host of any byte order writes the same frames, and every host that takes them apart finds the packet's
number and its send time.
-/

namespace Mdelay
open ByteOrder Checksum

/-! ### The checksum loop -/

theorem toNat_sum_words (ws : List Nat) (s : BitVec 32) (fits : s.toNat + ws.sum < 4294967296) :
    (ws.foldl (fun ipChecksum word => ipChecksum + BitVec.ofNat 32 word) s).toNat = s.toNat + ws.sum := by
  induction ws generalizing s with
  | nil => simp
  | cons word ws ih =>
    rw [List.sum_cons] at fits ⊢
    have added : (s + BitVec.ofNat 32 word).toNat = s.toNat + word := by
      rw [BitVec.toNat_add, BitVec.toNat_ofNat]
      omega
    rw [List.foldl_cons, ih _ (by omega), added]
    omega

theorem toNat_fold_once (s : BitVec 32) : ((s >>> 16) + (s &&& 0xFFFF)).toNat = fold s.toNat := by
  have small := s.isLt
  have mask : (s &&& 0xFFFF).toNat = s.toNat % 65536 := by
    rw [BitVec.toNat_and]
    exact Nat.and_two_pow_sub_one_eq_mod s.toNat 16
  rw [BitVec.toNat_add, BitVec.toNat_ushiftRight, mask, Nat.shiftRight_eq_div_pow, fold]
  omega

/-- The second addition carries at most once, so the cast to 16 bits drops what it has added. -/
theorem toNat_fold_complement {s : BitVec 32} (once : s.toNat ≤ 131070) :
    ((~~~(s + (s >>> 16))).setWidth 16).toNat = 65535 - fold s.toNat := by
  rw [BitVec.toNat_setWidth, BitVec.toNat_not, BitVec.toNat_add, BitVec.toNat_ushiftRight, Nat.shiftRight_eq_div_pow, fold]
  omega

theorem toNat_ipChecksum (e : Endian) {header : List Byte} (short : header.length ≤ 131068) :
    (ipChecksum e header).toNat = complement e header := by
  have bounded := sum_words_bounded short e
  have zero : BitVec.toNat (0 : BitVec 32) = 0 := rfl
  have sum := toNat_sum_words (words e header) 0 (by omega)
  rw [zero, Nat.zero_add] at sum
  unfold ipChecksum complement
  dsimp only
  rw [toNat_fold_complement, toNat_fold_once, sum]
  rw [toNat_fold_once, sum]
  unfold fold
  omega

/-- The header around its check field. -/
theorem bytes_split (e : Endian) (h : Iphdr) : ∃ front back, front.length = 10 ∧ back.length = 8 ∧
    ∀ check, { h with check := check }.bytes e = front ++ e.store 2 check.toNat ++ back := by
  refine ⟨[h.version ++ h.ihl, h.tos] ++ e.store 2 h.totLen.toNat ++ e.store 2 h.id.toNat ++
    e.store 2 h.fragOff.toNat ++ [h.ttl, h.protocol], e.store 4 h.saddr.toNat ++ e.store 4 h.daddr.toNat,
    by simp, by simp, fun check => ?_⟩
  simp only [Iphdr.bytes, List.append_assoc]

/-- Any value of the check field against what the loop computes. -/
theorem valid_check_iff (e e' : Endian) (h : Iphdr) (check : BitVec 16) :
    Valid e' ({ h with check := check }.bytes e) ↔
      check.toNat = (h.checked e).check.toNat ∨ (h.checked e).check.toNat = 0 ∧ check.toNat = 65535 := by
  obtain ⟨front, back, even, rest, split⟩ := bytes_split e h
  have short : ({ h with check := 0 }.bytes e).length ≤ 131068 := by simp
  have zero : e.store 2 (0 : BitVec 16).toNat = [0, 0] := by cases e <;> rfl
  have computed : (h.checked e).check.toNat = complement e (front ++ [0, 0] ++ back) := by
    unfold Iphdr.checked
    dsimp only
    rw [toNat_ipChecksum e short, split, zero]
  have small := check.isLt
  rw [split, computed]
  exact valid_store_iff e e' (by omega) (by omega) (by omega)

/-- The loop fills in a check value with which the header verifies, whatever its fields and whichever hosts write
and check it, and the only other one is `0xFFFF` for 0. -/
theorem check_value_iff (e e' : Endian) (h : Iphdr) (check : BitVec 16) :
    Valid e' ({ h with check := check }.bytes e) ↔
      check = (h.checked e).check ∨ (h.checked e).check = 0 ∧ check = 0xFFFF := by
  rw [valid_check_iff, ← BitVec.toNat_inj, ← BitVec.toNat_inj, ← BitVec.toNat_inj]
  rfl

/-! ### Taking a frame apart -/

theorem toNat_htons_little (v : BitVec 16) : (htons .little v).toNat = swapBytes 2 v.toNat := by
  have small := swapBytes_lt 2 v.toNat
  rw [htons, BitVec.toNat_ofNat]
  exact Nat.mod_eq_of_lt (by omega)

theorem store_htons (e : Endian) (v : BitVec 16) : e.store 2 (htons e v).toNat = beBytes 2 v.toNat := by
  cases e
  · rw [Endian.store, toNat_htons_little, leBytes_swapBytes]
  · rfl

namespace RefSender

def headers (e : Endian) : List Byte := (ethHeader e).bytes e ++ (ipHeader e).bytes e ++ (udpHeader e).bytes e

def header (i : Nat) (tv : Timeval) : Header := ⟨BitVec.ofNat 32 i, 0, tv.nanos, 0, 0, 0⟩

def payload (i : Nat) (tv : Timeval) : List Byte := (header i tv).message udpPayloadSize 0x41

/-- The frame of packet `i`, sent at `tv`. -/
def frame (e : Endian) (i : Nat) (tv : Timeval) : List Byte := headers e ++ payload i tv ++ List.replicate 82 0

end RefSender

/-! ### The buffer of the loop -/

theorem memcpyAt_append {front old rest src : List Byte} {off : Nat} (at_front : front.length = off)
    (same : old.length = src.length) : memcpyAt (front ++ old ++ rest) off src = front ++ src ++ rest := by
  rw [memcpyAt, memcpy, List.append_assoc, ← at_front, List.take_left, List.drop_left, ← same, List.drop_left,
    List.append_assoc]

theorem memcpyAt_front {old rest src : List Byte} (same : old.length = src.length) :
    memcpyAt (old ++ rest) 0 src = src ++ rest := by
  rw [memcpyAt, memcpy, List.take_zero, List.nil_append, List.drop_zero, ← same, List.drop_left]

namespace RefSender

@[simp] theorem length_headers (e : Endian) : (headers e).length = 42 := by
  simp [headers, EtherHeader.bytes, ethHeader, destMac, srcMac]

@[simp] theorem length_payload (i : Nat) (tv : Timeval) : (payload i tv).length = udpPayloadSize :=
  length_message _ _ (by decide)

theorem initialBuffer_eq (e : Endian) :
    initialBuffer e = headers e ++ List.replicate udpPayloadSize 0x41 ++ List.replicate 82 0 := by
  have split : List.replicate packetLen (0 : Byte) = List.replicate 14 0 ++ (List.replicate 20 0 ++
      (List.replicate 8 0 ++ (List.replicate udpPayloadSize 0 ++ List.replicate 82 0))) := by
    simp only [List.replicate_append_replicate]
    rfl
  have eth : ((ethHeader e).bytes e).length = 14 := by simp [EtherHeader.bytes, ethHeader, destMac, srcMac]
  unfold initialBuffer headers
  dsimp only
  rw [split, memcpyAt_front (by rw [eth, List.length_replicate]), ← List.append_assoc, memcpyAt_append eth (by simp), ← List.append_assoc,
    memcpyAt_append (by simp [eth]) (by simp), ← List.append_assoc, memcpyAt_append (by simp [eth]) (by simp)]

/-- Behind the headers, which stay, a message header and the filling. -/
structure Steady (e : Endian) (x : SendPackets) : Prop where
  buffer : ∃ old, old.length = sizeofMdelayhdr ∧
    x.buffer = headers e ++ old ++ (List.replicate (udpPayloadSize - sizeofMdelayhdr) 0x41 ++ List.replicate 82 0)
  mdelayhdr : ∃ seq t1, x.mdelayhdr = { Mdelayhdr.zero with seq := seq, t1 := t1 }

theorem steady_enter (e : Endian) : Steady e (SendPackets.enter e) := by
  refine ⟨⟨List.replicate sizeofMdelayhdr 0x41, List.length_replicate, ?_⟩, 0, 0, rfl⟩
  have split : List.replicate udpPayloadSize (0x41 : Byte) =
      List.replicate sizeofMdelayhdr 0x41 ++ List.replicate (udpPayloadSize - sizeofMdelayhdr) 0x41 := by
    rw [List.replicate_append_replicate]
    rfl
  rw [SendPackets.enter, initialBuffer_eq, split]
  simp only [List.append_assoc]

theorem iterate_buffer {e : Endian} {x : SendPackets} (steady : Steady e x) (tv : Timeval) :
    (x.iterate e tv).buffer = frame e x.i tv := by
  obtain ⟨⟨old, size, buffer⟩, seq, t1, rest⟩ := steady
  have network : ({ x.mdelayhdr with seq := htonl e (BitVec.ofNat 32 x.i), t1 := hton64 e tv.nanos } : Mdelayhdr) =
      (header x.i tv).toNetwork e 0 := by
    rw [rest]
    simp only [Header.toNetwork, header, hton64_zero, Mdelayhdr.zero]
  unfold SendPackets.iterate
  dsimp only
  rw [network, bytes_toNetwork, buffer, memcpyAt_append (length_headers e) (by rw [size, Header.length_wire]; rfl)]
  simp only [frame, payload, Header.message, List.append_assoc]

theorem steady_iterate {e : Endian} {x : SendPackets} (steady : Steady e x) (tv : Timeval) :
    Steady e (x.iterate e tv) := by
  refine ⟨⟨(header x.i tv).wire 0, Header.length_wire _ _, ?_⟩, ?_⟩
  · rw [iterate_buffer steady]
    simp only [frame, payload, Header.message, List.append_assoc]
  · obtain ⟨-, seq, t1, rest⟩ := steady
    exact ⟨_, _, by rw [SendPackets.iterate, rest]⟩

end RefSender

/-! ### What every host takes out of a frame -/

namespace RefSender

theorem ethHeader_bytes (e : Endian) :
    (ethHeader e).bytes e = [0xff, 0xff, 0xff, 0xff, 0xff, 0xff, 0x00, 0x1B, 0x2C, 0x3D, 0x4E, 0x5F, 0x08, 0x00] := by
  rw [EtherHeader.bytes, ethHeader, store_htons]
  rfl

theorem udpHeader_bytes (e : Endian) : (udpHeader e).bytes e = [0x05, 0x38, 0x05, 0x39, 0x03, 0x8C, 0, 0] := by
  have zero : e.store 2 (0 : BitVec 16).toNat = [0, 0] := by cases e <;> rfl
  simp only [Udphdr.bytes, udpHeader, store_htons, zero]
  rfl

theorem ipHeader_bytes (e : Endian) : ∃ high low,
    (ipHeader e).bytes e =
      [0x45, 0, 0x03, 0xA0, 0xD4, 0x31, 0, 0, 64, 17, high, low, 0, 0, 0, 0, 0, 0, 0, 0] := by
  have zero : e.store 2 (0 : BitVec 16).toNat = [0, 0] := by cases e <;> rfl
  have any : inetAddr e ['0', '.', '0', '.', '0', '.', '0'] = 0 := by
    have back := inetAddr_inetNtoa e 0
    have text : inetNtoa e 0 = ['0', '.', '0', '.', '0', '.', '0'] := by cases e <;> decide
    rwa [text] at back
  have none : e.store 4 (0 : BitVec 32).toNat = [0, 0, 0, 0] := by cases e <;> rfl
  obtain ⟨high, low, check⟩ := List.length_eq_two.mp (length_store e 2 (ipHeader e).check.toNat)
  refine ⟨high, low, ?_⟩
  rw [Iphdr.bytes, check]
  simp only [ipHeader, Iphdr.checked, store_htons, zero, any, none]
  rfl

/-- On whatever hosts, a frame is a UDP datagram to port 1337 that carries the packet. -/
theorem ofFrame_frame (e : Endian) (i : Nat) (tv : Timeval) :
    UdpDatagram.ofFrame (frame e i tv) = some ⟨1336, 1337, payload i tv⟩ := by
  obtain ⟨high, low, ip⟩ := ipHeader_bytes e
  have valid : Valid .big ((ipHeader e).bytes e) := (valid_check_iff e .big (ipHeader e) _).mpr (Or.inl rfl)
  have size := length_payload i tv
  rw [ip] at valid
  have whole : frame e i tv = [0xff, 0xff, 0xff, 0xff, 0xff, 0xff, 0x00, 0x1B, 0x2C, 0x3D, 0x4E, 0x5F, 0x08, 0x00] ++
      ([0x45, 0, 0x03, 0xA0, 0xD4, 0x31, 0, 0, 64, 17, high, low, 0, 0, 0, 0, 0, 0, 0, 0] ++
        ([0x05, 0x38, 0x05, 0x39, 0x03, 0x8C, 0, 0] ++ payload i tv ++ List.replicate 82 0)) := by
    simp only [frame, headers, ethHeader_bytes, ip, udpHeader_bytes, List.append_assoc]
  have behind : (frame e i tv).drop 14 =
      [0x45, 0, 0x03, 0xA0, 0xD4, 0x31, 0, 0, 64, 17, high, low, 0, 0, 0, 0, 0, 0, 0, 0] ++
        ([0x05, 0x38, 0x05, 0x39, 0x03, 0x8C, 0, 0] ++ payload i tv ++ List.replicate 82 0) := by
    rw [whole]
    rfl
  have version : ofBeBytes (slice 0 1 ((frame e i tv).drop 14)) = 0x45 := by
    rw [behind]
    rfl
  have totLen : ofBeBytes (slice 2 2 ((frame e i tv).drop 14)) = 928 := by
    rw [behind]
    rfl
  have long : ((frame e i tv).drop 14).length = 1010 := by
    rw [behind]
    simp [size, udpPayloadSize]
  -- The total length cuts off the zeros that fill up the frame.
  have udp : (((frame e i tv).drop 14).take 928).drop 20 = [0x05, 0x38, 0x05, 0x39, 0x03, 0x8C, 0, 0] ++ payload i tv := by
    rw [behind, ← List.append_assoc, List.take_left' (by simp [size, udpPayloadSize])]
    rfl
  have len : ofBeBytes (slice 4 2 ([0x05, 0x38, 0x05, 0x39, 0x03, 0x8C, 0, 0] ++ payload i tv)) = 908 := rfl
  have data : (([0x05, 0x38, 0x05, 0x39, 0x03, 0x8C, 0, 0] ++ payload i tv).take 908).drop 8 = payload i tv := by
    rw [List.take_of_length_le (by simp [size, udpPayloadSize])]
    rfl
  have front : ((frame e i tv).drop 14).take 20 =
      [0x45, 0, 0x03, 0xA0, 0xD4, 0x31, 0, 0, 64, 17, high, low, 0, 0, 0, 0, 0, 0, 0, 0] := by
    rw [behind]
    rfl
  unfold UdpDatagram.ofFrame
  simp only [version, totLen, Nat.reduceMod, Nat.reduceMul, udp, len, data, long, front]
  rw [if_pos]
  · rfl
  · refine ⟨?_, by decide, by decide, by decide, by decide, valid, ?_, ?_, by decide, ?_, rfl⟩
    · rw [whole]
      rfl
    · rw [behind]
      rfl
    · rw [behind]
      rfl
    · simp [size, udpPayloadSize]

end RefSender

/-! ### The run of the loop -/

namespace RefSender

/-- What `sendto` is given, one frame for each time that `gettimeofday` returns. -/
def SendPackets.frames (e : Endian) : SendPackets → List Timeval → List (List Byte)
  | _, [] => []
  | x, tv :: tvs => (x.iterate e tv).buffer :: SendPackets.frames e (x.iterate e tv) tvs

theorem frames_eq {e : Endian} {x : SendPackets} (steady : Steady e x) (tvs : List Timeval) :
    x.frames e tvs = tvs.mapIdx fun k tv => frame e (x.i + k) tv := by
  induction tvs generalizing x with
  | nil => rfl
  | cons tv tvs ih =>
    have later (k : Nat) : (x.iterate e tv).i + k = x.i + (k + 1) := by
      show x.i + 1 + k = x.i + (k + 1)
      omega
    rw [SendPackets.frames, iterate_buffer steady, ih (steady_iterate steady tv), List.mapIdx_cons, Nat.add_zero]
    simp only [later]

theorem length_frame (e : Endian) (i : Nat) (tv : Timeval) : (frame e i tv).length = packetLen := by
  simp only [frame, List.length_append, length_headers, length_payload, List.length_replicate]
  rfl

/-- A sender of any byte order sends one frame of 1024 bytes per turn of its loop, and a receiver of any byte
order takes the number of the turn and the time of the send out of it, at port 1337. -/
theorem send_packets_frames (e e' : Endian) (tvs : List Timeval) :
    ((SendPackets.enter e).frames e tvs).length = tvs.length ∧
      ∀ k (sent : k < tvs.length), ∃ f ∈ ((SendPackets.enter e).frames e tvs)[k]?, ∃ datagram,
        f.length = packetLen ∧ UdpDatagram.ofFrame f = some datagram ∧ datagram.dest = 1337 ∧
          datagram.data.length = udpPayloadSize ∧
          decode e' datagram.data = ⟨BitVec.ofNat 32 k, PktType.delayReq.code, tvs[k].nanos, 0, 0, 0⟩ := by
  rw [frames_eq (steady_enter e)]
  refine ⟨List.length_mapIdx, fun k sent => ?_⟩
  have found : (tvs.mapIdx fun k tv => frame e ((SendPackets.enter e).i + k) tv)[k]? = some (frame e k tvs[k]) := by
    rw [List.getElem?_mapIdx, List.getElem?_eq_getElem sent, Option.map_some]
    show some (frame e (0 + k) _) = _
    rw [Nat.zero_add]
  exact ⟨_, found, _, length_frame e k _, ofFrame_frame e k _, rfl, length_payload k _, decode_message e' _ _ _⟩

end RefSender

end Mdelay
