import Mathlib.Data.List.Perm.Subperm
import Mdelay.Protocol.Delivery

/-!
# Exchanges over a network that loses and duplicates

What a side has sent and the copies made of it are what the other side has received, what is on its
way and what has been lost. Without copies a lost follow-up is missed forever; without lost
follow-ups a side that waits for one has one to wait for.
-/

namespace TwoStep.Exchange
open Transition

variable {T : Type*} {bound : Side → Nat} {n : Nat} {s s' : Exchange T} {a : Action T}

/-- The number of the message `i`, if it is one of those `p` is to receive. -/
def numbered (net : List (Message T)) (i : Nat) (p : Side) (followUp : Bool) : List Nat :=
  onWay net[i]?.toList p followUp

def lost (s : Exchange T) (p : Side) (followUp : Bool) : Action T → List Nat
  | .drop i => numbered s.net i p followUp
  | _ => []

def copied (s : Exchange T) (p : Side) (followUp : Bool) : Action T → List Nat
  | .dup i => numbered s.net i p followUp
  | _ => []

def Accounted (s : Exchange T) (p : Side) (followUp : Bool) (copies losses : List Nat) : Prop :=
  (seqs s.trace p.other true followUp ++ copies).Perm
    (seqs s.trace p false followUp ++ onWay s.net p followUp ++ losses)

theorem accounted_start (n : Nat) (p : Side) (followUp : Bool) :
    Accounted (start n : Exchange T) p followUp [] [] := .nil

theorem numbered_of_found {net : List (Message T)} {i : Nat} {m : Message T} (found : net[i]? = some m) (p : Side)
    (followUp : Bool) :
    numbered net i p followUp = if m.dest = p ∧ m.stamp.isSome = followUp then [m.seq] else [] := by
  rw [numbered, found]
  by_cases same : m.dest = p ∧ m.stamp.isSome = followUp <;> simp [onWay, same]

theorem accounted_send {p : Side} {followUp : Bool} {copies losses : List Nat}
    (accounted : Accounted s p followUp copies losses) (q : Side) (k : Nat) (stamp : Option T) (t : T) :
    (seqs (s.trace ++ [⟨q, true, stamp.isSome, k, t⟩]) p.other true followUp ++ copies).Perm
      (seqs (s.trace ++ [⟨q, true, stamp.isSome, k, t⟩]) p false followUp ++
        onWay (s.net ++ [⟨q.other, k, stamp⟩]) p followUp ++ losses) := by
  have old := List.perm_iff_count.mp accounted
  rw [seqs_snoc, seqs_snoc, onWay_snoc, List.perm_iff_count]
  intro j
  have before := old j
  simp only [List.count_append] at before ⊢
  have same : (q = p.other ∧ stamp.isSome = followUp) ↔ q.other = p ∧ stamp.isSome = followUp := by
    cases q <;> cases p <;> simp [Side.other]
  simp only [true_and, same, Bool.true_eq_false, false_and, and_false, if_false, List.count_nil]
  omega

theorem accounted_step {p : Side} {followUp : Bool} {copies losses : List Nat}
    (accounted : Accounted s p followUp copies losses) (stepped : Stepped bound s a s') :
    Accounted s' p followUp (copies ++ s.copied p followUp a) (losses ++ s.lost p followUp a) := by
  cases stepped with
  | @event q t k rest todo stage =>
    simp only [copied, lost, List.append_nil]
    exact accounted_send accounted q k none t
  | @followUp q t k rest u todo stage =>
    simp only [copied, lost, List.append_nil]
    exact accounted_send accounted q k (some u) t
  | @deliver i t m found accepts =>
    simp only [copied, lost, List.append_nil, Accounted, receive]
    rw [seqs_snoc, seqs_snoc, List.perm_iff_count]
    intro j
    have before := List.perm_iff_count.mp accounted j
    have taken := List.perm_iff_count.mp (onWay_eraseIdx found p followUp) j
    simp only [List.count_append, Bool.false_eq_true, false_and, and_false, if_false, List.count_nil, true_and]
      at before taken ⊢
    omega
  | @drop i inside =>
    have found : s.net[i]? = some s.net[i] := List.getElem?_eq_getElem inside
    simp only [copied, lost, List.append_nil, numbered_of_found found, Accounted]
    rw [List.perm_iff_count]
    intro j
    have before := List.perm_iff_count.mp accounted j
    have taken := List.perm_iff_count.mp (onWay_eraseIdx found p followUp) j
    simp only [List.count_append] at before taken ⊢
    omega
  | @dup i m found =>
    simp only [copied, lost, List.append_nil, numbered_of_found found, Accounted]
    rw [onWay_snoc, List.perm_iff_count]
    intro j
    have before := List.perm_iff_count.mp accounted j
    simp only [List.count_append] at before ⊢
    omega

/-- A side has sent the events of its follow-ups, and perhaps one more. -/
theorem events_of_orderly (orderly : Orderly n bound s) (p : Side) :
    seqs s.trace p true false = seqs s.trace p true true ∨
      ∃ k rest, s.todo p = k :: rest ∧ seqs s.trace p true false = seqs s.trace p true true ++ [k] := by
  have whole := (orderly.events p).trans (orderly.followUps p).symm
  cases stage : s.stage p with
  | none =>
    rw [stage] at whole
    exact Or.inl (List.append_cancel_right whole)
  | some t =>
    obtain ⟨k, rest, todo⟩ := List.exists_cons_of_ne_nil (orderly.busy p (by rw [stage]; rfl))
    rw [stage, todo] at whole
    have split : seqs s.trace p true false ++ rest = (seqs s.trace p true true ++ [k]) ++ rest := by
      simpa using whole
    exact Or.inr ⟨k, rest, todo, List.append_cancel_right split⟩

/-! ### Without copies -/

def Unduplicated (_ : Exchange T) : Action T → Prop
  | .dup _ => False
  | _ => True

def Within (s : Exchange T) : Prop := ∀ p followUp, ∃ losses, Accounted s p followUp [] losses

/-- The follow-up `k` for `p` has been lost, and there is no other. -/
def Missing (s : Exchange T) (p : Side) (k : Nat) : Prop := ∃ losses, k ∈ losses ∧ Accounted s p true [] losses

theorem copied_of_unduplicated (unduplicated : Unduplicated s a) (p : Side) (followUp : Bool) :
    s.copied p followUp a = [] := by
  cases a with
  | dup i => exact unduplicated.elim
  | event | followUp | deliver | drop => rfl

theorem accounted_unduplicated {p : Side} {followUp : Bool} {losses : List Nat} (unduplicated : Unduplicated s a)
    (accounted : Accounted s p followUp [] losses) (stepped : Stepped bound s a s') :
    Accounted s' p followUp [] (losses ++ s.lost p followUp a) := by
  have after := accounted_step accounted stepped
  rwa [copied_of_unduplicated unduplicated, List.append_nil] at after

theorem within_start (n : Nat) : Within (start n : Exchange T) := fun p followUp => ⟨[], accounted_start n p followUp⟩

theorem within_step (within : Within s) (unduplicated : Unduplicated s a) (stepped : Stepped bound s a s') :
    Within s' := by
  intro p followUp
  obtain ⟨losses, accounted⟩ := within p followUp
  exact ⟨_, accounted_unduplicated unduplicated accounted stepped⟩

theorem within_run {actions : List (Action T)} (run : Run (step bound) Unduplicated (start n) actions s) :
    Traced n bound s ∧ Within s := by
  refine run_invariant (I := fun s => Traced n bound s ∧ Within s) ?_ ⟨traced_start n bound, within_start n⟩ run
  rintro s a s' ⟨traced, within⟩ unduplicated taken
  have stepped := stepped_iff.mp taken
  exact ⟨traced_step traced stepped, within_step within unduplicated stepped⟩

theorem missing_step {p : Side} {k : Nat} (missing : Missing s p k) (unduplicated : Unduplicated s a)
    (stepped : Stepped bound s a s') : Missing s' p k := by
  obtain ⟨losses, member, accounted⟩ := missing
  exact ⟨_, List.mem_append_left _ member, accounted_unduplicated unduplicated accounted stepped⟩

theorem missing_of_drop (within : Within s) {i : Nat} {m : Message T} (found : s.net[i]? = some m)
    (stamped : m.stamp.isSome = true) (stepped : Stepped bound s (.drop i) s') : Missing s' m.dest m.seq := by
  obtain ⟨losses, accounted⟩ := within m.dest true
  refine ⟨_, List.mem_append_right _ ?_, accounted_unduplicated (a := .drop i) trivial accounted stepped⟩
  rw [lost, numbered_of_found found, if_pos ⟨rfl, stamped⟩]
  exact List.mem_singleton_self _

theorem nodup_within (orderly : Orderly n bound s) (within : Within s) (p : Side) (sent followUp : Bool) :
    (seqs s.trace p sent followUp).Nodup := by
  have receives {q : Side} (nodup : ∀ f, (seqs s.trace q.other true f).Nodup) (f : Bool) :
      (seqs s.trace q false f).Nodup := by
    obtain ⟨losses, accounted⟩ := within q f
    rw [Accounted, List.append_nil] at accounted
    have whole := accounted.nodup_iff.mp (nodup f)
    exact (List.nodup_append.mp (List.nodup_append.mp whole).1).1
  have requests := sent_nodup orderly (p := .initiator) List.nodup_range
  have requestsIn := receives (q := .responder) requests
  have responses := sent_nodup orderly (p := .responder) (requestsIn true)
  have responsesIn := receives (q := .initiator) responses
  cases p <;> cases sent
  · exact responsesIn followUp
  · exact requests followUp
  · exact requestsIn followUp
  · exact responses followUp

/-- A side counts no more than the other has sent, and the responder sends no more than it has counted. -/
theorem count_of_accounted (orderly : Orderly n bound s) {p : Side} {losses : List Nat}
    (accounted : Accounted s p true [] losses) :
    (s.recorder p).count + losses.length ≤ (tasks n s.trace p.other).length := by
  have lengths := accounted.length_eq
  have sent := congrArg List.length (orderly.followUps p.other)
  simp only [List.length_append, List.length_nil] at lengths sent
  rw [orderly.count p]
  omega

theorem counts_within (orderly : Orderly n bound s) (within : Within s) :
    (s.recorder .responder).count ≤ n ∧ (s.recorder .initiator).count ≤ (s.recorder .responder).count := by
  obtain ⟨requests, accounted⟩ := within .responder true
  obtain ⟨responses, accounted'⟩ := within .initiator true
  have asked := count_of_accounted orderly accounted
  have answered := count_of_accounted orderly accounted'
  rw [orderly.count .responder] at asked ⊢
  change _ ≤ (List.range n).length at asked
  change _ ≤ (seqs s.trace .responder false true).length at answered
  rw [List.length_range] at asked
  omega

/-- A side that misses a follow-up never counts enough; if it is the responder, neither does the initiator. -/
theorem count_of_missing (orderly : Orderly n bound s) (within : Within s) {p : Side} {k : Nat}
    (missing : Missing s p k) : (s.recorder p).count < n ∧ (p = .responder → (s.recorder .initiator).count < n) := by
  obtain ⟨requests, responses⟩ := counts_within orderly within
  obtain ⟨losses, member, accounted⟩ := missing
  have some := List.length_pos_of_mem member
  have few := count_of_accounted orderly accounted
  cases p with
  | initiator =>
    change _ ≤ (seqs s.trace .responder false true).length at few
    rw [← orderly.count .responder] at few
    exact ⟨by omega, fun absurd => by cases absurd⟩
  | responder =>
    change _ ≤ (List.range n).length at few
    rw [List.length_range] at few
    exact ⟨by omega, fun _ => by omega⟩

theorem received_perm_within (traced : Traced n bound s) (within : Within s) {p : Side}
    (enough : n ≤ (s.recorder p).count) : (seqs s.trace p false true).Perm (List.range n) := by
  have nodup := nodup_within traced.orderly within p false true
  have inside : seqs s.trace p false true ⊆ List.range n := by
    intro k member
    obtain ⟨t, member⟩ := mem_seqs.mp member
    exact List.mem_range.mpr (traced.numbered.trace _ member)
  refine (nodup.subperm inside).perm_of_length_le ?_
  rw [List.length_range, ← traced.orderly.count p]
  exact enough

/-! ### Without lost follow-ups -/

def Followed (s : Exchange T) (a : Action T) : Prop := ∀ p, s.lost p true a = []

def Covered (s : Exchange T) : Prop := ∀ p, ∃ copies, Accounted s p true copies []

theorem covered_start (n : Nat) : Covered (start n : Exchange T) := fun p => ⟨[], accounted_start n p true⟩

theorem covered_step (covered : Covered s) (followed : Followed s a) (stepped : Stepped bound s a s') :
    Covered s' := by
  intro p
  obtain ⟨copies, accounted⟩ := covered p
  have after := accounted_step accounted stepped
  rw [followed p, List.append_nil] at after
  exact ⟨_, after⟩

theorem covered_run {actions : List (Action T)} (run : Run (step bound) Followed (start n) actions s) :
    Traced n bound s ∧ Covered s := by
  refine run_invariant (I := fun s => Traced n bound s ∧ Covered s) ?_ ⟨traced_start n bound, covered_start n⟩ run
  rintro s a s' ⟨traced, covered⟩ followed taken
  have stepped := stepped_iff.mp taken
  exact ⟨traced_step traced stepped, covered_step covered followed stepped⟩

/-- Copies are no reason to wait for a follow-up in vain. -/
theorem supplied_of_covered (traced : Traced n bound s) (covered : Covered s) : Supplied n s := by
  intro p few idle asked
  have all := traced.orderly.followUps p.other
  rw [idle, List.append_nil] at all
  have sent : n ≤ (seqs s.trace p.other true true).length := by
    rw [all]
    cases p with
    | initiator =>
      have taken := asked rfl
      rwa [traced.orderly.count .responder] at taken
    | responder => exact (List.length_range).ge
  obtain ⟨copies, accounted⟩ := covered p
  have lengths := accounted.length_eq
  simp only [List.length_append, List.length_nil] at lengths
  rw [← traced.orderly.count p] at lengths
  obtain ⟨k, member⟩ := List.exists_mem_of_length_pos (l := onWay s.net p true) (by omega)
  obtain ⟨m, member, here, stamped, -⟩ := mem_onWay.mp member
  exact ⟨m, member, here, stamped⟩

end TwoStep.Exchange
