import Mathlib.Logic.Function.Basic

/-!
# Arrays amid other memory

An access behind or before an array does not stop a program where it meets memory that the program has.
The places around an array are counted in entries from its first one, and none of them is a variable that
the program is modelled with.
-/

namespace Overrun

variable {α : Type*} {cap : Nat}

/-- What memory holds around an array, `none` where an access stops the program. Only the places outside
the array are looked at. -/
abbrev Around (α : Type*) := Int → Option α

def Inside (cap : Nat) (i : Int) : Prop := 0 ≤ i ∧ i < cap

instance (cap : Nat) (i : Int) : Decidable (Inside cap i) := inferInstanceAs (Decidable (_ ∧ _))

theorem toNat_lt {i : Int} (inside : Inside cap i) : i.toNat < cap := (Int.toNat_lt inside.1).mpr inside.2

def read (xs : Fin cap → α) (around : Around α) (i : Int) : Option α :=
  if inside : Inside cap i then some (xs ⟨i.toNat, toNat_lt inside⟩) else around i

def write (xs : Fin cap → α) (around : Around α) (i : Int) (f : α → α) : Option ((Fin cap → α) × Around α) :=
  if inside : Inside cap i then
    let k : Fin cap := ⟨i.toNat, toNat_lt inside⟩
    some (Function.update xs k (f (xs k)), around)
  else (around i).map fun x => (xs, Function.update around i (some (f x)))

variable {xs ys : Fin cap → α} {around around' : Around α} {i j : Int} {f : α → α}

theorem inside_natCast {cap k : Nat} : Inside cap k ↔ k < cap :=
  ⟨fun inside => Int.ofNat_lt.mp inside.2, fun below => ⟨Int.natCast_nonneg k, Int.ofNat_lt.mpr below⟩⟩

theorem read_of_inside (k : Fin cap) : read xs around k = some (xs k) := by
  rw [read, dif_pos (inside_natCast.mpr k.isLt)]
  rfl

theorem read_of_outside (outside : ¬ Inside cap i) : read xs around i = around i := dif_neg outside

/-- A write meets the array, of which it changes one entry, or the memory around. -/
theorem of_write (written : write xs around i f = some (ys, around')) :
    (Inside cap i ∧ around' = around) ∨
      (¬ Inside cap i ∧ ys = xs ∧ ∃ x, around i = some x ∧ around' = Function.update around i (some (f x))) := by
  unfold write at written
  split at written
  · rename_i inside
    obtain ⟨-, rfl⟩ := Prod.mk.inj (Option.some.inj written)
    exact Or.inl ⟨inside, rfl⟩
  · rename_i outside
    obtain ⟨x, there, same⟩ := Option.map_eq_some_iff.mp written
    obtain ⟨rfl, rfl⟩ := Prod.mk.inj same
    exact Or.inr ⟨outside, rfl, x, there, rfl⟩

theorem entry_of_write (written : write xs around i f = some (ys, around')) (k : Fin cap) :
    ys k = if (k.val : Int) = i then f (xs k) else xs k := by
  unfold write at written
  split at written
  · rename_i inside
    obtain ⟨rfl, -⟩ := Prod.mk.inj (Option.some.inj written)
    have nonneg := inside.1
    by_cases same : (k.val : Int) = i
    · subst same
      simp
    · have other : k ≠ ⟨i.toNat, toNat_lt inside⟩ := fun equal => by
        have number := congrArg Fin.val equal
        dsimp only at number
        omega
      rw [if_neg same, Function.update_of_ne other]
  · rename_i outside
    obtain ⟨x, -, same⟩ := Option.map_eq_some_iff.mp written
    obtain ⟨rfl, -⟩ := Prod.mk.inj same
    rw [if_neg]
    rintro rfl
    exact outside (inside_natCast.mpr k.isLt)

/-- A write stops the program exactly where a read does. -/
theorem write_eq_none_iff : write xs around i f = none ↔ read xs around i = none := by
  unfold write read
  split <;> simp

end Overrun
