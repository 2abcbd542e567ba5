import Mdelay.Proofs.Recording

/-!
# When the receive loops go on

`while (var = do_recv(...) && var > 0 && total_measurements < measure_number)` stores the value of
the whole condition: what is compared with 0 is the truth value of the turn before, and on the first
turn whatever the variable held.
-/

namespace Mdelay
open ByteOrder Transition

/-- `measure_number` is an unsigned int in the master and an int in the slave. -/
def Role.number (role : Role) (measureNumber : BitVec 32) : Int :=
  match role with
  | .master => measureNumber.toNat
  | .slave => measureNumber.toInt

theorem bound_of_positive {role : Role} (e : Endian) {measureNumber : BitVec 32}
    (positive : 0 < role.number measureNumber) :
    ((role.program e measureNumber).bound.toNat : Int) = role.number measureNumber := by
  cases role with
  | master =>
    change (((measureNumber.setWidth 64).toNat : Nat) : Int) = measureNumber.toNat
    rw [BitVec.toNat_setWidth, Nat.mod_eq_of_lt (by omega)]
  | slave =>
    change (((measureNumber.signExtend 64).toNat : Nat) : Int) = measureNumber.toInt
    change 0 < measureNumber.toInt at positive
    have signed : (measureNumber.signExtend 64).toInt = measureNumber.toInt :=
      BitVec.toInt_signExtend_of_le (by decide)
    rw [← signed] at positive ⊢
    rw [BitVec.toInt_eq_toNat_cond] at positive ⊢
    split at positive <;> omega

/-- A call of `do_recv` has returned `result.1`, leaving the program in `result.2`, and the loop has
made its test. -/
def Program.returned (p : Program) (l : p.Loop) (result : Int × p.State) : Option p.Loop :=
  if l.status = .running then some (p.afterRecv l result.1 result.2) else none

variable {p : Program} {var : Int} {results : List (Int × p.State)} {l : p.Loop}

theorem running_afterRecv (u : p.Loop) (got : Int) (st : p.State) :
    (p.afterRecv u got st).status = .running ↔ got ≠ 0 ∧ 0 < u.var ∧ p.total st < p.bound := by
  by_cases test : got ≠ 0 ∧ 0 < u.var ∧ p.total st < p.bound
  · rw [afterRecv_of_test test]
    exact iff_of_true rfl test
  · rw [afterRecv_of_not_test test]
    exact iff_of_false (fun running => by cases running) test

theorem run_returned_snoc {last : Int × p.State}
    (run : Run p.returned Any (p.enter var) (results ++ [last]) l) :
    ∃ u, Run p.returned Any (p.enter var) results u ∧ u.status = .running ∧
      l = p.afterRecv u last.1 last.2 := by
  obtain ⟨u, first, -, v, turned, rfl⟩ := run_append.mp run
  refine ⟨u, first, ?_⟩
  unfold Program.returned at turned
  split at turned
  · rename_i running
    exact ⟨running, (Option.some.inj turned).symm⟩
  · cases turned

/-- A loop that still runs has passed every test; from the second on the variable was 1. -/
theorem tests_of_running (run : Run p.returned Any (p.enter var) results l) (running : l.status = .running) :
    (∀ r ∈ results, r.1 ≠ 0 ∧ p.total r.2 < p.bound) ∧ (0 < l.var ↔ 0 < var) ∧ (results ≠ [] → 0 < var) := by
  induction results using List.reverseRecOn generalizing l with
  | nil =>
    obtain rfl : p.enter var = l := run
    exact ⟨fun r member => (by cases member), Iff.rfl, fun some => absurd rfl some⟩
  | append_singleton results last ih =>
    obtain ⟨u, first, before, rfl⟩ := run_returned_snoc run
    obtain ⟨passed, entered, -⟩ := ih first before
    obtain ⟨some, positive, below⟩ := (running_afterRecv u last.1 last.2).mp running
    rw [afterRecv_of_test ⟨some, positive, below⟩]
    refine ⟨fun r member => ?_, iff_of_true Int.one_pos (entered.mp positive), fun _ => entered.mp positive⟩
    rcases List.mem_append.mp member with old | new
    · exact passed r old
    · obtain rfl := List.mem_singleton.mp new
      exact ⟨some, below⟩

/-- The test after the last of the calls, and those it has passed before. -/
theorem running_snoc {pre : List (Int × p.State)} {last : Int × p.State}
    (run : Run p.returned Any (p.enter var) (pre ++ [last]) l) :
    (l.status = .running ↔ last.1 ≠ 0 ∧ 0 < var ∧ p.total last.2 < p.bound) ∧
      (∀ r ∈ pre, r.1 ≠ 0 ∧ p.total r.2 < p.bound) ∧ (pre ≠ [] → 0 < var) := by
  obtain ⟨u, first, before, rfl⟩ := run_returned_snoc run
  obtain ⟨passed, entered, some⟩ := tests_of_running first before
  rw [running_afterRecv, entered]
  exact ⟨Iff.rfl, passed, some⟩

/-- `do_recv` is called again after a call exactly when this and all calls before it have returned
more than 0 and the count is still below `measure_number`. -/
def Program.ExitsRight (p : Program) (number : Int) (var : Int) (results : List (Int × p.State)) : Prop :=
  ∀ pre last l, pre ++ [last] <+: results → Run p.returned Any (p.enter var) (pre ++ [last]) l →
    (l.status = .running ↔ (∀ r ∈ pre ++ [last], 0 < r.1) ∧ ((p.total last.2).toNat : Int) < number)

/-- The loops are left when they should be exactly when, below `measure_number`, no call returns a
negative number, or no positive one if the variable was not positive at the entry. -/
theorem loop_exit_iff (role : Role) (e : Endian) (measureNumber : BitVec 32)
    (positive : 0 < role.number measureNumber) (var : Int)
    (results : List (Int × (role.program e measureNumber).State)) (l : (role.program e measureNumber).Loop)
    (run : Run (role.program e measureNumber).returned Any ((role.program e measureNumber).enter var) results l) :
    let p := role.program e measureNumber
    p.ExitsRight (role.number measureNumber) var results ↔
      ∀ r ∈ results, ((p.total r.2).toNat : Int) < role.number measureNumber →
        if 0 < var then 0 ≤ r.1 else r.1 ≤ 0 := by
  intro p
  have below (st : p.State) : ((p.total st).toNat : Int) < role.number measureNumber ↔ p.total st < p.bound := by
    rw [← bound_of_positive e positive, BitVec.lt_def]
    exact Int.ofNat_lt
  simp only [Program.ExitsRight, below]
  constructor
  · intro right r member few
    obtain ⟨pre, post, split⟩ := List.append_of_mem member
    have whole : results = (pre ++ [r]) ++ post := by rw [split, List.append_assoc, List.singleton_append]
    obtain ⟨s, first, -⟩ := run_append.mp (whole ▸ run)
    have exits := right pre r s ⟨post, whole.symm⟩ first
    obtain ⟨again, -, some⟩ := running_snoc first
    rw [again] at exits
    by_cases entered : 0 < var
    · rw [if_pos entered]
      by_contra negative
      have returned := (exits.mp ⟨by omega, entered, few⟩).1 r (by simp)
      omega
    · rw [if_neg entered]
      by_contra returned
      have alone : pre = [] := by
        by_contra more
        exact entered (some more)
      subst alone
      have again := exits.mpr ⟨fun r' member => (List.mem_singleton.mp member).symm ▸ (by omega), few⟩
      exact entered again.2.1
  · intro never pre last s short first
    obtain ⟨again, passed, -⟩ := running_snoc first
    have lastMember : last ∈ results := short.subset (by simp)
    rw [again]
    constructor
    · rintro ⟨nonzero, entered, few⟩
      refine ⟨fun r member => ?_, few⟩
      have tested : r.1 ≠ 0 ∧ p.total r.2 < p.bound := by
        rcases List.mem_append.mp member with old | new
        · exact passed r old
        · obtain rfl := List.mem_singleton.mp new
          exact ⟨nonzero, few⟩
      have sign := never r (short.subset member) tested.2
      rw [if_pos entered] at sign
      have some := tested.1
      omega
    · rintro ⟨allPositive, few⟩
      have returned := allPositive last (by simp)
      refine ⟨by omega, ?_, few⟩
      by_contra entered
      have sign := never last lastMember few
      rw [if_neg entered] at sign
      omega

/-- A receive error does not end the loop, and with 0 in the variable a datagram does. -/
theorem loop_exit_negative_return :
    let p := Slave.program .little 1
    (∃ l, Run p.returned Any (p.enter 1) [(-1, p.start)] l ∧ l.status = .running) ∧
      (∃ l, Run p.returned Any (p.enter 0) [(900, p.start)] l ∧ l.status = .left ∧ p.total p.start = 0) ∧
      ¬ p.ExitsRight 1 1 [(-1, p.start)] ∧ ¬ p.ExitsRight 1 0 [(900, p.start)] := by
  intro p
  have goesOn : Run p.returned Any (p.enter 1) [(-1, p.start)] (p.afterRecv (p.enter 1) (-1) p.start) :=
    ⟨trivial, _, rfl, rfl⟩
  have ends : Run p.returned Any (p.enter 0) [(900, p.start)] (p.afterRecv (p.enter 0) 900 p.start) :=
    ⟨trivial, _, rfl, rfl⟩
  refine ⟨⟨_, goesOn, by decide⟩, ⟨_, ends, by decide, rfl⟩, fun right => ?_, fun right => ?_⟩
  · have returned := ((right [] _ _ (List.prefix_refl _) goesOn).mp (by decide)).1 (-1, p.start) (by simp)
    exact absurd returned (by decide)
  · have again := (right [] _ _ (List.prefix_refl _) ends).mpr ⟨fun r member => ?_, by decide⟩
    · exact absurd again (by decide)
    · obtain rfl := List.mem_singleton.mp member
      decide

theorem loop_exit_one_datagram :
    let p := Slave.program .little 1
    p.ExitsRight 1 1 [(900, p.start)] := by
  intro p
  refine (loop_exit_iff .slave .little 1 (by decide) 1 [(900, p.start)] (p.afterRecv (p.enter 1) 900 p.start)
    ⟨trivial, _, rfl, rfl⟩).mpr fun r member few => ?_
  obtain rfl := List.mem_singleton.mp member
  decide

end Mdelay
