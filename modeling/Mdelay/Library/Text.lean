import Mathlib.Data.List.Basic
import Mathlib.Data.List.TakeWhile

/-!
# Decimal text

Naturals printed in decimal, lines of text, and reading both back.
-/

namespace Text

def decimal (n : Nat) : List Char := Nat.toDigits 10 n

def readDecimal (cs : List Char) : Option Nat :=
  if cs ≠ [] ∧ cs.all Char.isDigit then some (Nat.ofDigitChars 10 cs 0) else none

theorem isDigit_of_mem_decimal {n : Nat} {c : Char} (member : c ∈ decimal n) : c.isDigit = true :=
  Nat.isDigit_of_mem_toDigits (by decide) (by decide) member

theorem decimal_ne_nil (n : Nat) : decimal n ≠ [] := Nat.toDigits_ne_nil

theorem readDecimal_decimal (n : Nat) : readDecimal (decimal n) = some n := by
  have digits : (decimal n).all Char.isDigit = true :=
    List.all_eq_true.mpr fun _ member => isDigit_of_mem_decimal member
  rw [readDecimal, if_pos ⟨decimal_ne_nil n, digits⟩, decimal, Nat.ofDigitChars_ten_toDigits]

theorem not_mem_decimal {c : Char} (other : c.isDigit = false) (n : Nat) : c ∉ decimal n := by
  intro member
  rw [isDigit_of_mem_decimal member] at other
  cases other

/-! ### Integers with surrounding space -/

def strip (cs : List Char) : List Char :=
  ((cs.dropWhile Char.isWhitespace).reverse.dropWhile Char.isWhitespace).reverse

/-- An integer as a script reads it: an optional sign before the digits, space around them. -/
def readInt (cs : List Char) : Option Int :=
  match strip cs with
  | '-' :: ds => (readDecimal ds).map fun n => -Int.ofNat n
  | '+' :: ds => (readDecimal ds).map Int.ofNat
  | ds => (readDecimal ds).map Int.ofNat

theorem isWhitespace_of_isDigit {c : Char} (digit : c.isDigit = true) : c.isWhitespace = false := by
  by_contra space
  simp only [Char.isWhitespace, Bool.not_eq_false, Bool.or_eq_true, decide_eq_true_eq] at space
  rcases space with ((rfl | rfl) | rfl) | rfl <;> revert digit <;> decide

theorem dropWhile_of_digits {cs : List Char} (digits : ∀ c ∈ cs, c.isDigit = true) :
    cs.dropWhile Char.isWhitespace = cs := by
  cases cs with
  | nil => rfl
  | cons c cs =>
    have first := isWhitespace_of_isDigit (digits c List.mem_cons_self)
    rw [List.dropWhile_cons_of_neg (by simp [first])]

theorem strip_line {cs : List Char} (digits : ∀ c ∈ cs, c.isDigit = true) (some : cs ≠ []) :
    strip (cs ++ ['\n']) = cs := by
  have front : (cs ++ ['\n']).dropWhile Char.isWhitespace = cs ++ ['\n'] := by
    cases cs with
    | nil => exact absurd rfl some
    | cons c cs =>
      have first := isWhitespace_of_isDigit (digits c List.mem_cons_self)
      rw [List.cons_append, List.dropWhile_cons_of_neg (by simp [first])]
  have newline : Char.isWhitespace '\n' = true := rfl
  rw [strip, front, List.reverse_append, List.reverse_singleton, List.singleton_append,
    List.dropWhile_cons_of_pos newline, dropWhile_of_digits, List.reverse_reverse]
  exact fun c member => digits c (List.mem_reverse.mp member)

theorem readInt_decimal_line (n : Nat) : readInt (decimal n ++ ['\n']) = some (n : Int) := by
  have digits : ∀ c ∈ decimal n, c.isDigit = true := fun _ member => isDigit_of_mem_decimal member
  rw [readInt, strip_line digits (decimal_ne_nil n)]
  split
  · rename_i same
    exact absurd (digits '-' (by simp [same])) (by decide)
  · rename_i same
    exact absurd (digits '+' (by simp [same])) (by decide)
  · rw [readDecimal_decimal]
    rfl

/-! ### Signed numbers -/

/-- `%ld` -/
def signed (n : Int) : List Char := if n < 0 then '-' :: decimal n.natAbs else decimal n.natAbs

theorem mem_signed {c : Char} {n : Int} (member : c ∈ signed n) : c = '-' ∨ c.isDigit = true := by
  unfold signed at member
  split at member
  · rcases List.mem_cons.mp member with same | digit
    · exact Or.inl same
    · exact Or.inr (isDigit_of_mem_decimal digit)
  · exact Or.inr (isDigit_of_mem_decimal member)

theorem not_mem_signed {c : Char} (other : c.isDigit = false) (sign : c ≠ '-') (n : Int) : c ∉ signed n := by
  intro member
  rcases mem_signed member with same | digit
  · exact sign same
  · rw [other] at digit
    cases digit

theorem signed_ne_nil (n : Int) : signed n ≠ [] := by
  unfold signed
  split
  · exact List.cons_ne_nil _ _
  · exact decimal_ne_nil _

theorem strip_solid {cs : List Char} (solid : ∀ c ∈ cs, c.isWhitespace = false) (some : cs ≠ []) (space : List Char)
    (blank : ∀ c ∈ space, c.isWhitespace = true) : strip (cs ++ space) = cs := by
  have front (ds rest : List Char) (solid : ∀ c ∈ ds, c.isWhitespace = false) (some : ds ≠ []) :
      (ds ++ rest).dropWhile Char.isWhitespace = ds ++ rest := by
    cases ds with
    | nil => exact absurd rfl some
    | cons c ds => rw [List.cons_append, List.dropWhile_cons_of_neg (by simp [solid c List.mem_cons_self])]
  have back := front cs.reverse [] (fun c member => solid c (List.mem_reverse.mp member)) (by simpa using some)
  rw [List.append_nil] at back
  rw [strip, front cs space solid some, List.reverse_append,
    List.dropWhile_append_of_pos (fun c member => blank c (List.mem_reverse.mp member)), back, List.reverse_reverse]

theorem readInt_signed (n : Int) (space : List Char) (blank : ∀ c ∈ space, c.isWhitespace = true) :
    readInt (signed n ++ space) = some n := by
  have solid : ∀ c ∈ signed n, c.isWhitespace = false := by
    intro c member
    rcases mem_signed member with rfl | digit
    · rfl
    · exact isWhitespace_of_isDigit digit
  unfold readInt
  rw [strip_solid solid (signed_ne_nil n) space blank]
  by_cases negative : n < 0
  · have text : signed n = '-' :: decimal n.natAbs := if_pos negative
    rw [text]
    simp only [readDecimal_decimal, Option.map_some, Option.some.injEq, Int.ofNat_eq_natCast]
    omega
  · have text : signed n = decimal n.natAbs := if_neg negative
    have digits : ∀ c ∈ decimal n.natAbs, c.isDigit = true := fun _ member => isDigit_of_mem_decimal member
    rw [text]
    split
    · rename_i same
      exact absurd (digits '-' (by simp [same])) (by decide)
    · rename_i same
      exact absurd (digits '+' (by simp [same])) (by decide)
    · rw [readDecimal_decimal]
      simp only [Option.map_some, Option.some.injEq, Int.ofNat_eq_natCast]
      omega

/-! ### Numbers of the C library -/

/-- `isspace` -/
def isSpace (c : Char) : Bool := c = ' ' || (9 ≤ c.toNat && c.toNat ≤ 13)

def digitsOf (cs : List Char) : Nat := Nat.ofDigitChars 10 (cs.takeWhile Char.isDigit) 0

def signedOf : List Char → Int
  | '-' :: ds => -(digitsOf ds : Int)
  | '+' :: ds => digitsOf ds
  | ds => digitsOf ds

/-- `strtol(cs, NULL, 10)`: the number the text begins with, at the end of the range of a `long` if it lies
outside. -/
def strtol (cs : List Char) : Int :=
  max (-0x8000000000000000) (min 0x7FFFFFFFFFFFFFFF (signedOf (cs.dropWhile isSpace)))

/-- `atoi` -/
def atoi (cs : List Char) : BitVec 32 := BitVec.ofInt 32 (strtol cs)

theorem isSpace_of_isDigit {c : Char} (digit : c.isDigit = true) : isSpace c = false := by
  simp only [Char.isDigit, Bool.and_eq_true, decide_eq_true_eq] at digit
  obtain ⟨above, below⟩ := digit
  have low : 48 ≤ c.toNat := above
  have high : c.toNat ≤ 57 := below
  have other : c ≠ ' ' := by
    intro same
    rw [same] at low
    exact absurd low (by decide)
  simp [isSpace, other]
  omega

theorem signedOf_digits {cs : List Char} (digits : ∀ c ∈ cs, c.isDigit = true) : signedOf cs = digitsOf cs := by
  unfold signedOf
  split
  · exact absurd (digits '-' List.mem_cons_self) (by decide)
  · exact absurd (digits '+' List.mem_cons_self) (by decide)
  · rfl

theorem strtol_decimal {n : Nat} (fits : n < 0x8000000000000000) : strtol (decimal n) = n := by
  have digits : ∀ c ∈ decimal n, c.isDigit = true := fun _ member => isDigit_of_mem_decimal member
  have whole : digitsOf (decimal n) = n := by
    rw [digitsOf, List.takeWhile_eq_self_iff.mpr digits, decimal, Nat.ofDigitChars_ten_toDigits]
  have front : (decimal n).dropWhile isSpace = decimal n := by
    cases split : decimal n with
    | nil => rfl
    | cons c cs =>
      have first := isSpace_of_isDigit (digits c (by rw [split]; exact List.mem_cons_self))
      rw [List.dropWhile_cons_of_neg (by simp [first])]
  rw [strtol, front, signedOf_digits digits, whole]
  omega

theorem atoi_decimal {n : Nat} (fits : n < 0x8000000000000000) : atoi (decimal n) = BitVec.ofNat 32 n := by
  rw [atoi, strtol_decimal fits, BitVec.ofInt_natCast]

/-! ### Lines -/

/-- The lines of a text, each with the newline that ends it. -/
def readlines : List Char → List (List Char)
  | [] => []
  | c :: cs =>
    if c = '\n' then [c] :: readlines cs
    else
      match readlines cs with
      | [] => [[c]]
      | line :: rest => (c :: line) :: rest

theorem readlines_line {line : List Char} (plain : '\n' ∉ line) (rest : List Char) :
    readlines (line ++ '\n' :: rest) = (line ++ ['\n']) :: readlines rest := by
  induction line with
  | nil => simp [readlines]
  | cons c line ih =>
    rw [List.mem_cons, not_or] at plain
    rw [List.cons_append, readlines, if_neg (Ne.symm plain.1), ih plain.2]
    rfl

theorem readlines_flatten {lines : List (List Char)} (plain : ∀ line ∈ lines, '\n' ∉ line) :
    readlines (lines.map fun line => line ++ ['\n']).flatten = lines.map fun line => line ++ ['\n'] := by
  induction lines with
  | nil => rfl
  | cons line lines ih =>
    rw [List.map_cons, List.flatten_cons, List.append_assoc, List.singleton_append,
      readlines_line (plain line List.mem_cons_self),
      ih fun other member => plain other (List.mem_cons_of_mem _ member)]

end Text
