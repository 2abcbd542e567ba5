import Mathlib.Data.List.Forall2

/-!
# Runs of a partial step function

A transition system is a step function `σ → ℓ → Option σ` whose label carries every choice the
environment makes. A schedule is a predicate on the state and the label of a step.
-/

namespace Transition

variable {σ τ ℓ κ : Type*}
variable {step : σ → ℓ → Option σ} {ok : σ → ℓ → Prop}

/-- The labels `ls`, each permitted by the schedule `ok`, lead from `s` to `t`. -/
def Run (step : σ → ℓ → Option σ) (ok : σ → ℓ → Prop) : σ → List ℓ → σ → Prop
  | s, [], t => s = t
  | s, l :: ls, t => ok s l ∧ ∃ u, step s l = some u ∧ Run step ok u ls t

def Any : σ → ℓ → Prop := fun _ _ => True

instance (s : σ) (l : ℓ) : Decidable (Any s l) := .isTrue trivial

def exec (step : σ → ℓ → Option σ) (ok : σ → ℓ → Prop) [∀ s l, Decidable (ok s l)] :
    σ → List ℓ → Option σ
  | s, [] => some s
  | s, l :: ls => if ok s l then (step s l).bind fun t => exec step ok t ls else none

theorem exec_eq_some [∀ s l, Decidable (ok s l)] {s t : σ} {ls : List ℓ} :
    exec step ok s ls = some t ↔ Run step ok s ls t := by
  induction ls generalizing s with
  | nil => simp [exec, Run]
  | cons l ls ih =>
    by_cases allowed : ok s l
    · simp [exec, Run, allowed, Option.bind_eq_some_iff, ih]
    · simp [exec, Run, allowed]

theorem run_of_exec (step : σ → ℓ → Option σ) (ok : σ → ℓ → Prop) [∀ s l, Decidable (ok s l)] {κ : Type*}
    (s : σ) (ls : List ℓ) (f : σ → κ) (x : κ) (computed : (exec step ok s ls).map f = some x) :
    ∃ t, Run step ok s ls t ∧ f t = x := by
  obtain ⟨t, found, seen⟩ := Option.map_eq_some_iff.mp computed
  exact ⟨t, exec_eq_some.mp found, seen⟩

theorem run_append {s t : σ} {xs ys : List ℓ} :
    Run step ok s (xs ++ ys) t ↔ ∃ u, Run step ok s xs u ∧ Run step ok u ys t := by
  induction xs generalizing s with
  | nil => simp [Run]
  | cons l xs ih =>
    simp only [List.cons_append, Run, ih]
    constructor
    · rintro ⟨allowed, u, taken, v, left, right⟩
      exact ⟨v, ⟨allowed, u, taken, left⟩, right⟩
    · rintro ⟨v, ⟨allowed, u, taken, left⟩, right⟩
      exact ⟨allowed, u, taken, v, left, right⟩

theorem run_cons_of_taken {s t u : σ} {l : ℓ} {ls : List ℓ} (taken : step s l = some u) :
    Run step ok s (l :: ls) t ↔ ok s l ∧ Run step ok u ls t := by
  refine and_congr_right fun _ => ⟨?_, fun rest => ⟨u, taken, rest⟩⟩
  rintro ⟨v, taken', rest⟩
  obtain rfl := Option.some.inj (taken.symm.trans taken')
  exact rest

theorem run_mono {ok' : σ → ℓ → Prop} (weaker : ∀ s l, ok s l → ok' s l) {s t : σ} {ls : List ℓ}
    (run : Run step ok s ls t) : Run step ok' s ls t := by
  induction ls generalizing s with
  | nil => exact run
  | cons l ls ih =>
    obtain ⟨allowed, u, taken, rest⟩ := run
    exact ⟨weaker _ _ allowed, u, taken, ih rest⟩

theorem run_forall {P : ℓ → Prop} (given : ∀ s l, ok s l → P l) {s t : σ} {ls : List ℓ} (run : Run step ok s ls t) :
    ∀ l ∈ ls, P l := by
  induction ls generalizing s with
  | nil => exact List.forall_mem_nil P
  | cons l ls ih =>
    obtain ⟨allowed, u, -, rest⟩ := run
    exact List.forall_mem_cons.mpr ⟨given s l allowed, ih rest⟩

theorem run_invariant {I : σ → Prop}
    (kept : ∀ s l t, I s → ok s l → step s l = some t → I t)
    {s t : σ} {ls : List ℓ} (start : I s) (run : Run step ok s ls t) : I t := by
  induction ls generalizing s with
  | nil => exact run ▸ start
  | cons l ls ih =>
    obtain ⟨allowed, u, taken, rest⟩ := run
    exact ih (kept _ _ _ start allowed taken) rest

/-- An invariant between the state and what the labels so far have contributed to a history. -/
theorem run_history {I : σ → List κ → Prop} {f : ℓ → Option κ}
    (kept : ∀ s h l t, I s h → ok s l → step s l = some t → I t (h ++ (f l).toList))
    {s t : σ} {h : List κ} {ls : List ℓ} (start : I s h) (run : Run step ok s ls t) : I t (h ++ ls.filterMap f) := by
  induction ls generalizing s h with
  | nil =>
    rw [List.filterMap_nil, List.append_nil]
    exact run ▸ start
  | cons l ls ih =>
    obtain ⟨allowed, u, taken, rest⟩ := run
    have said : (l :: ls).filterMap f = (f l).toList ++ ls.filterMap f := by
      rw [List.filterMap_cons]
      cases f l <;> rfl
    rw [said, ← List.append_assoc]
    exact ih (kept _ _ _ _ start allowed taken) rest

/-- Two schedules that agree wherever an invariant of all runs holds have the same runs. -/
theorem run_congr {ok' : σ → ℓ → Prop} {I : σ → Prop} (kept : ∀ s l t, I s → step s l = some t → I t)
    (agree : ∀ s l, I s → (ok s l ↔ ok' s l)) {s t : σ} {ls : List ℓ} (start : I s) :
    Run step ok s ls t ↔ Run step ok' s ls t := by
  induction ls generalizing s with
  | nil => exact Iff.rfl
  | cons l ls ih =>
    exact and_congr (agree s l start)
      (exists_congr fun u => and_congr_right fun taken => ih (kept s l u start taken))

/-- Forward simulation: a concrete label is matched by the abstract label `f` gives it, or by
no step at all when `f` gives none. -/
theorem run_simulate (step' : τ → κ → Option τ) (ok' : τ → κ → Prop) (R : σ → τ → Prop)
    (f : ℓ → Option κ)
    (matched : ∀ s a l t, R s a → ok s l → step s l = some t →
      match f l with
      | none => R t a
      | some k => ok' a k ∧ ∃ b, step' a k = some b ∧ R t b)
    {s t : σ} {a : τ} {ls : List ℓ} (start : R s a) (run : Run step ok s ls t) :
    ∃ b, Run step' ok' a (ls.filterMap f) b ∧ R t b := by
  induction ls generalizing s a with
  | nil => exact ⟨a, rfl, run ▸ start⟩
  | cons l ls ih =>
    obtain ⟨allowed, u, taken, rest⟩ := run
    have answer := matched s a l u start allowed taken
    cases silent : f l with
    | none =>
      rw [silent] at answer
      rw [List.filterMap_cons_none silent]
      exact ih answer rest
    | some k =>
      rw [silent] at answer
      obtain ⟨allowed', b, taken', related⟩ := answer
      obtain ⟨c, tail, final⟩ := ih related rest
      rw [List.filterMap_cons_some silent]
      exact ⟨c, ⟨allowed', b, taken', tail⟩, final⟩

/-- Labels related one by one, each pair judged in the state the first is taken in. -/
def Along (step : σ → ℓ → Option σ) (L : σ → ℓ → ℓ → Prop) : σ → List ℓ → List ℓ → Prop
  | _, [], [] => True
  | s, l :: ls, l' :: ls' => L s l l' ∧ ∀ t, step s l = some t → Along step L t ls ls'
  | _, _, _ => False

theorem along_of_forall₂ {L : σ → ℓ → ℓ → Prop} {ls ls' : List ℓ}
    (labels : List.Forall₂ (fun l l' => ∀ s, L s l l') ls ls') (s : σ) : Along step L s ls ls' := by
  induction labels generalizing s with
  | nil => trivial
  | cons same _ ih => exact ⟨same s, fun t _ => ih t⟩

theorem run_lockstep {R : σ → σ → Prop} {L : σ → ℓ → ℓ → Prop}
    (kept : ∀ s s' l l' t t', R s s' → L s l l' → ok s l → ok s' l' →
      step s l = some t → step s' l' = some t' → R t t')
    {s s' t t' : σ} {ls ls' : List ℓ} (start : R s s') (labels : Along step L s ls ls')
    (run : Run step ok s ls t) (run' : Run step ok s' ls' t') : R t t' := by
  induction ls generalizing s s' ls' with
  | nil =>
    cases ls' with
    | nil =>
      obtain rfl : s = t := run
      obtain rfl : s' = t' := run'
      exact start
    | cons l' ls' => exact labels.elim
  | cons l ls ih =>
    cases ls' with
    | nil => exact labels.elim
    | cons l' ls' =>
      obtain ⟨same, labels⟩ := labels
      obtain ⟨allowed, u, taken, rest⟩ := run
      obtain ⟨allowed', u', taken', rest'⟩ := run'
      exact ih (kept _ _ _ _ _ _ start same allowed allowed' taken taken') (labels u taken) rest rest'

/-- The number of steps of a run that count as busy, each judged in the state it is taken in. -/
def busySteps (step : σ → ℓ → Option σ) (busy : σ → ℓ → Bool) : σ → List ℓ → Nat
  | _, [] => 0
  | s, l :: ls =>
    (if busy s l then 1 else 0) +
      match step s l with
      | some t => busySteps step busy t ls
      | none => 0

/-- A measure that every busy step lowers, and that no step raises but some, those by at most `d`, bounds
the busy steps of a run. It may look at an abstract state that accompanies the run. -/
theorem busySteps_le_raised (busy : σ → ℓ → Bool) (R : σ → τ → Prop) (measure : σ → τ → Nat) (raises : ℓ → Bool)
    (d : Nat)
    (lowered : ∀ s a l t, R s a → ok s l → step s l = some t →
      ∃ b, R t b ∧ measure t b + (if busy s l then 1 else 0) ≤ measure s a + if raises l then d else 0)
    {s t : σ} {a : τ} {ls : List ℓ} (start : R s a) (run : Run step ok s ls t) :
    busySteps step busy s ls ≤ measure s a + d * ls.countP raises := by
  induction ls generalizing s a with
  | nil => exact Nat.zero_le _
  | cons l ls ih =>
    obtain ⟨allowed, u, taken, rest⟩ := run
    obtain ⟨b, related, head⟩ := lowered _ _ _ _ start allowed taken
    have tail := ih related rest
    have raised : d * (l :: ls).countP raises = d * ls.countP raises + if raises l then d else 0 := by
      rw [List.countP_cons, Nat.mul_add]
      split <;> simp
    simp only [busySteps, taken]
    omega

/-- A measure that no step raises and every busy step lowers bounds the busy steps of a run. -/
theorem busySteps_le (busy : σ → ℓ → Bool) (R : σ → τ → Prop) (measure : σ → τ → Nat)
    (lowered : ∀ s a l t, R s a → ok s l → step s l = some t →
      ∃ b, R t b ∧ measure t b + (if busy s l then 1 else 0) ≤ measure s a)
    {s t : σ} {a : τ} {ls : List ℓ} (start : R s a) (run : Run step ok s ls t) :
    busySteps step busy s ls ≤ measure s a := by
  have bounded := busySteps_le_raised busy R measure (fun _ => false) 0 (by simpa using lowered) start run
  omega

/-- A run to the goal: short of it, some permitted step lowers the measure. -/
theorem exists_run_of_progress (R : σ → τ → Prop) (measure : σ → τ → Nat) (goal : σ → Prop)
    (moves : ∀ s a, R s a → ¬ goal s → ∃ l t b, ok s l ∧ step s l = some t ∧ R t b ∧ measure t b < measure s a)
    {s : σ} {a : τ} (start : R s a) : ∃ ls t b, Run step ok s ls t ∧ R t b ∧ goal t := by
  induction size : measure s a using Nat.strongRecOn generalizing s a with
  | _ m ih =>
    by_cases there : goal s
    · exact ⟨[], s, a, rfl, start, there⟩
    · obtain ⟨l, u, b, allowed, taken, related, less⟩ := moves s a start there
      obtain ⟨ls, t, c, run, related', there'⟩ := ih _ (size ▸ less) related rfl
      exact ⟨l :: ls, t, c, ⟨allowed, u, taken, run⟩, related', there'⟩

end Transition
