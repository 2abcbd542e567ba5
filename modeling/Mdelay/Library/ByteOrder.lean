import Mathlib.Data.List.Basic
import Mathlib.Tactic.Ring

/-!
# Byte order

Fixed-width naturals as bytes, in the order a host keeps them in memory and in network order.
-/

namespace ByteOrder

abbrev Byte := BitVec 8

inductive Endian where
  | little | big
  deriving DecidableEq

/-- The `n` bytes of `v`, least significant first. Higher bits are dropped. -/
def leBytes : Nat → Nat → List Byte
  | 0, _ => []
  | n + 1, v => BitVec.ofNat 8 v :: leBytes n (v / 256)

def ofLeBytes : List Byte → Nat
  | [] => 0
  | b :: bs => b.toNat + 256 * ofLeBytes bs

def beBytes (n v : Nat) : List Byte := (leBytes n v).reverse

def ofBeBytes (bs : List Byte) : Nat := ofLeBytes bs.reverse

def swapBytes (n v : Nat) : Nat := ofLeBytes (beBytes n v)

def Endian.store (e : Endian) (n v : Nat) : List Byte :=
  match e with
  | .little => leBytes n v
  | .big => beBytes n v

def Endian.load (e : Endian) (bs : List Byte) : Nat :=
  match e with
  | .little => ofLeBytes bs
  | .big => ofBeBytes bs

@[simp] theorem length_leBytes (n v : Nat) : (leBytes n v).length = n := by
  induction n generalizing v with
  | zero => rfl
  | succ n ih => simp [leBytes, ih]

@[simp] theorem length_beBytes (n v : Nat) : (beBytes n v).length = n := by simp [beBytes]

@[simp] theorem length_store (e : Endian) (n v : Nat) : (e.store n v).length = n := by
  cases e <;> simp [Endian.store]

/-! ### Round trips -/

theorem ofLeBytes_leBytes (n v : Nat) : ofLeBytes (leBytes n v) = v % 256 ^ n := by
  induction n generalizing v with
  | zero => simp [leBytes, ofLeBytes, Nat.mod_one]
  | succ n ih =>
    have split : v % 256 ^ (n + 1) = v % 256 + 256 * (v / 256 % 256 ^ n) := by
      rw [pow_succ', Nat.mod_mul]
    rw [leBytes, ofLeBytes, ih, BitVec.toNat_ofNat, split]

theorem leBytes_ofLeBytes (bs : List Byte) : leBytes bs.length (ofLeBytes bs) = bs := by
  induction bs with
  | nil => rfl
  | cons b bs ih =>
    have small := b.isLt
    have head : BitVec.ofNat 8 (b.toNat + 256 * ofLeBytes bs) = b := by
      apply BitVec.eq_of_toNat_eq
      rw [BitVec.toNat_ofNat]
      omega
    have tail : (b.toNat + 256 * ofLeBytes bs) / 256 = ofLeBytes bs := by omega
    rw [List.length_cons, ofLeBytes, leBytes, head, tail, ih]

theorem leBytes_ofLeBytes_of_length {n : Nat} {bs : List Byte} (size : bs.length = n) :
    leBytes n (ofLeBytes bs) = bs := by
  rw [← size, leBytes_ofLeBytes]

theorem ofLeBytes_lt (bs : List Byte) : ofLeBytes bs < 256 ^ bs.length := by
  induction bs with
  | nil => simp [ofLeBytes]
  | cons b bs ih =>
    have small := b.isLt
    rw [ofLeBytes, List.length_cons, pow_succ]
    omega

theorem ofBeBytes_lt (bs : List Byte) : ofBeBytes bs < 256 ^ bs.length := by
  simpa [ofBeBytes] using ofLeBytes_lt bs.reverse

theorem ofBeBytes_beBytes (n v : Nat) : ofBeBytes (beBytes n v) = v % 256 ^ n := by
  rw [ofBeBytes, beBytes, List.reverse_reverse, ofLeBytes_leBytes]

theorem beBytes_ofBeBytes {n : Nat} {bs : List Byte} (size : bs.length = n) :
    beBytes n (ofBeBytes bs) = bs := by
  rw [beBytes, ofBeBytes, leBytes_ofLeBytes_of_length (by simp [size]), List.reverse_reverse]

theorem load_store (e : Endian) (n v : Nat) : e.load (e.store n v) = v % 256 ^ n := by
  cases e
  · exact ofLeBytes_leBytes n v
  · exact ofBeBytes_beBytes n v

/-! ### Swapping -/

theorem swapBytes_lt (n v : Nat) : swapBytes n v < 256 ^ n := by
  simpa [swapBytes] using ofLeBytes_lt (beBytes n v)

theorem leBytes_swapBytes (n v : Nat) : leBytes n (swapBytes n v) = beBytes n v :=
  leBytes_ofLeBytes_of_length (length_beBytes n v)

theorem swapBytes_swapBytes (n v : Nat) : swapBytes n (swapBytes n v) = v % 256 ^ n := by
  rw [swapBytes, beBytes, leBytes_swapBytes, beBytes, List.reverse_reverse, ofLeBytes_leBytes]

theorem swapBytes_load {n : Nat} {bs : List Byte} (size : bs.length = n) :
    swapBytes n (ofLeBytes bs) = ofBeBytes bs := by
  rw [swapBytes, beBytes, leBytes_ofLeBytes_of_length size, ofBeBytes]

theorem leBytes_append (m n v : Nat) :
    leBytes (m + n) v = leBytes m v ++ leBytes n (v / 256 ^ m) := by
  induction m generalizing v with
  | zero => simp [leBytes]
  | succ m ih =>
    rw [Nat.add_right_comm, leBytes, ih, leBytes, List.cons_append, Nat.div_div_eq_div_mul, pow_succ']

theorem ofLeBytes_append (xs ys : List Byte) :
    ofLeBytes (xs ++ ys) = ofLeBytes xs + 256 ^ xs.length * ofLeBytes ys := by
  induction xs with
  | nil => simp [ofLeBytes]
  | cons b xs ih =>
    rw [List.cons_append, ofLeBytes, ih, ofLeBytes, List.length_cons, pow_succ']
    ring

theorem swapBytes_add (m n v : Nat) :
    swapBytes (m + n) v = swapBytes n (v / 256 ^ m) + 256 ^ n * swapBytes m v := by
  rw [swapBytes, beBytes, leBytes_append, List.reverse_append, ofLeBytes_append]
  simp [swapBytes, beBytes]

theorem leBytes_mod (n v : Nat) : leBytes n (v % 256 ^ n) = leBytes n v := by
  rw [← ofLeBytes_leBytes, leBytes_ofLeBytes_of_length (length_leBytes n v)]

theorem swapBytes_mod (n v : Nat) : swapBytes n (v % 256 ^ n) = swapBytes n v := by
  rw [swapBytes, beBytes, leBytes_mod, swapBytes, beBytes]

end ByteOrder
