import Mathlib.Algebra.Ring.Nat
import Mathlib.Data.Nat.ModEq
import Mdelay.Library.ByteOrder

/-!
# The Internet checksum

The ones' complement sum of 16-bit words. It may be computed and verified in the byte order of any host.
-/

namespace Checksum
open ByteOrder

/-- The 16-bit words of a text of bytes as a host reads them; a last odd byte is padded with zero. -/
def words (e : Endian) : List Byte → List Nat
  | a :: b :: bs => e.load [a, b] :: words e bs
  | [a] => [e.load [a, 0]]
  | [] => []

/-- The carries of a sum added back to its low 16 bits. -/
def fold (sum : Nat) : Nat := sum / 65536 + sum % 65536

def complement (e : Endian) (bs : List Byte) : Nat := 65535 - fold (fold (words e bs).sum)

def Valid (e : Endian) (bs : List Byte) : Prop := fold (fold (words e bs).sum) = 65535

instance (e : Endian) (bs : List Byte) : Decidable (Valid e bs) := inferInstanceAs (Decidable (_ = _))

/-! ### Folding -/

theorem fold_mod (sum : Nat) : fold sum % 65535 = sum % 65535 := by
  unfold fold
  omega

theorem fold_fold_le {sum : Nat} (bounded : sum ≤ 65535 * 65535) : fold (fold sum) ≤ 65535 := by
  unfold fold
  omega

theorem fold_pos_iff (sum : Nat) : 0 < fold sum ↔ 0 < sum := by
  unfold fold
  omega

theorem fold_fold_eq_iff {sum : Nat} (bounded : sum ≤ 65535 * 65535) :
    fold (fold sum) = 65535 ↔ sum % 65535 = 0 ∧ 0 < sum := by
  have same : fold (fold sum) % 65535 = sum % 65535 := by rw [fold_mod, fold_mod]
  have positive : 0 < fold (fold sum) ↔ 0 < sum := by rw [fold_pos_iff, fold_pos_iff]
  have le := fold_fold_le bounded
  omega

/-! ### Words -/

theorem load_pair_lt (e : Endian) (a b : Byte) : e.load [a, b] ≤ 65535 := by
  have ha := a.isLt
  have hb := b.isLt
  cases e <;> simp [Endian.load, ofBeBytes, ofLeBytes] <;> omega

theorem sum_words_le (e : Endian) (bs : List Byte) : (words e bs).sum ≤ 65535 * ((bs.length + 1) / 2) := by
  induction bs using words.induct with
  | case1 a b bs ih =>
    have first := load_pair_lt e a b
    rw [words, List.sum_cons, List.length_cons, List.length_cons]
    omega
  | case2 a =>
    have first := load_pair_lt e a 0
    simp only [words, List.sum_singleton, List.length_singleton]
    omega
  | case3 => simp [words]

theorem words_append (e : Endian) {front : List Byte} (even : front.length % 2 = 0) (back : List Byte) :
    words e (front ++ back) = words e front ++ words e back := by
  induction front using words.induct with
  | case1 a b front ih =>
    rw [List.length_cons, List.length_cons] at even
    rw [List.cons_append, List.cons_append, words, words, ih (by omega), List.cons_append]
  | case2 a => simp at even
  | case3 => rfl

theorem words_store (e : Endian) {word : Nat} (fits : word ≤ 65535) : words e (e.store 2 word) = [word] := by
  have whole := load_store e 2 word
  have size := length_store e 2 word
  obtain ⟨a, b, split⟩ := List.length_eq_two.mp size
  rw [split] at whole ⊢
  simp only [words, whole]
  congr 1
  omega

/-- Exchanging the bytes of every word multiplies the sum by 256, up to a multiple of 65535. -/
theorem sum_words_little (bs : List Byte) :
    (words .little bs).sum ≡ 256 * (words .big bs).sum [MOD 65535] := by
  have swapped (a b : Byte) : Endian.load .little [a, b] ≡ 256 * Endian.load .big [a, b] [MOD 65535] := by
    simp only [Endian.load, ofBeBytes, ofLeBytes, List.reverse_cons, List.reverse_nil, List.nil_append,
      List.cons_append, Nat.ModEq]
    omega
  induction bs using words.induct with
  | case1 a b bs ih =>
    rw [words, words, List.sum_cons, List.sum_cons, Nat.mul_add]
    exact (swapped a b).add ih
  | case2 a => simpa [words] using swapped a 0
  | case3 => rfl

theorem sum_words_pos_iff (bs : List Byte) : 0 < (words .little bs).sum ↔ 0 < (words .big bs).sum := by
  induction bs using words.induct with
  | case1 a b bs ih =>
    simp only [words, List.sum_cons, Endian.load, ofBeBytes, ofLeBytes, List.reverse_cons, List.reverse_nil,
      List.nil_append, List.cons_append]
    omega
  | case2 a => simp [words, Endian.load, ofBeBytes, ofLeBytes]
  | case3 => simp [words]

/-! ### Checking a checksum -/

section Valid

variable {bs : List Byte} (short : bs.length ≤ 131068)
include short

theorem sum_words_bounded (e : Endian) : (words e bs).sum ≤ 65535 * 65535 := by
  have le := sum_words_le e bs
  omega

theorem valid_iff (e : Endian) : Valid e bs ↔ (words e bs).sum % 65535 = 0 ∧ 0 < (words e bs).sum :=
  fold_fold_eq_iff (sum_words_bounded short e)

/-- Whether a checksum verifies does not depend on the host's byte order. -/
theorem valid_endian (e e' : Endian) : Valid e bs ↔ Valid e' bs := by
  have orders : Valid .little bs ↔ Valid .big bs := by
    rw [valid_iff short, valid_iff short, sum_words_pos_iff]
    have swapped := sum_words_little bs
    unfold Nat.ModEq at swapped
    omega
  cases e <;> cases e' <;> simp [orders]

end Valid

/-- Where the sum has left room for a word, the only words that make the whole verify, on any host, are its
complement and, for a complement of zero, also `0xFFFF`. -/
theorem valid_store_iff (e e' : Endian) {front back : List Byte} (even : front.length % 2 = 0)
    (short : front.length + back.length ≤ 131066) {word : Nat} (fits : word ≤ 65535) :
    Valid e' (front ++ e.store 2 word ++ back) ↔
      word = complement e (front ++ [0, 0] ++ back) ∨ complement e (front ++ [0, 0] ++ back) = 0 ∧ word = 65535 := by
  have size : (front ++ e.store 2 word ++ back).length ≤ 131068 := by
    simp only [List.length_append, length_store]
    omega
  rw [valid_endian size e' e, valid_iff size]
  have bounded : (words e (front ++ [0, 0] ++ back)).sum ≤ 65535 * 65535 := by
    apply sum_words_bounded
    simp only [List.length_append, List.length_cons, List.length_nil]
    omega
  have folded := fold_fold_le bounded
  have same : fold (fold (words e (front ++ [0, 0] ++ back)).sum) % 65535 =
      (words e (front ++ [0, 0] ++ back)).sum % 65535 := by rw [fold_mod, fold_mod]
  have cleared : (words e (front ++ [0, 0] ++ back)).sum = (words e front).sum + (words e back).sum := by
    have zero : e.load [0#8, 0#8] = 0 := by cases e <;> rfl
    rw [List.append_assoc, words_append e even, List.sum_append]
    simp [words, zero]
  have stored : (words e (front ++ e.store 2 word ++ back)).sum = (words e front).sum + word + (words e back).sum := by
    rw [List.append_assoc, words_append e even, words_append e (by simp), words_store e fits]
    simp only [List.sum_append, List.sum_singleton]
    omega
  rw [stored, complement]
  have positive := fold_pos_iff (fold (words e (front ++ [0, 0] ++ back)).sum)
  have positive' := fold_pos_iff (words e (front ++ [0, 0] ++ back)).sum
  omega

end Checksum
