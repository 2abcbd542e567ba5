import Mathlib.Data.List.Forall2

/-!
# Lists related element by element

What indexing, erasing and appending do to two lists in `List.Forall₂`.
-/

namespace Related

variable {α β : Type*} {R : α → β → Prop} {xs : List α} {ys : List β}

theorem getElem? (related : List.Forall₂ R xs ys) {i : Nat} {x : α} (found : xs[i]? = some x) :
    ∃ y, ys[i]? = some y ∧ R x y := by
  induction related generalizing i with
  | nil => cases found
  | @cons x' y' xs ys first _ ih =>
    cases i with
    | zero =>
      obtain rfl := Option.some.inj found
      exact ⟨y', rfl, first⟩
    | succ i => exact ih found

theorem getElem?_right (related : List.Forall₂ R xs ys) {i : Nat} {y : β} (found : ys[i]? = some y) :
    ∃ x, xs[i]? = some x ∧ R x y :=
  getElem? related.flip found

theorem mem_left (related : List.Forall₂ R xs ys) {x : α} (member : x ∈ xs) : ∃ y ∈ ys, R x y := by
  obtain ⟨i, found⟩ := List.mem_iff_getElem?.mp member
  obtain ⟨y, found, holds⟩ := getElem? related found
  exact ⟨y, List.mem_of_getElem? found, holds⟩

theorem mem_right (related : List.Forall₂ R xs ys) {y : β} (member : y ∈ ys) : ∃ x ∈ xs, R x y :=
  mem_left related.flip member

theorem eraseIdx (related : List.Forall₂ R xs ys) (i : Nat) : List.Forall₂ R (xs.eraseIdx i) (ys.eraseIdx i) := by
  rw [List.eraseIdx_eq_take_drop_succ, List.eraseIdx_eq_take_drop_succ]
  exact List.rel_append (List.forall₂_take i related) (List.forall₂_drop (i + 1) related)

theorem snoc (related : List.Forall₂ R xs ys) {x : α} {y : β} (last : R x y) :
    List.Forall₂ R (xs ++ [x]) (ys ++ [y]) :=
  List.rel_append related (.cons last .nil)

end Related
