import Mathlib.Data.List.Perm.Subperm
import Mathlib.Data.List.Nodup
import Mathlib.Data.List.Range
import Mdelay.Protocol.Provenance

/-!
# Exchanges over a network that loses and duplicates nothing

What a side has sent is what the other has received and what is on its way. So a side that has
counted `n` follow-ups has them all, and one that waits for more has one to wait for.
-/

namespace TwoStep.Exchange
open Transition

variable {T : Type*} {bound : Side → Nat} {n : Nat} {s s' : Exchange T} {a : Action T}

def Balanced (s : Exchange T) : Prop :=
  ∀ p followUp, (seqs s.trace p.other true followUp).Perm (seqs s.trace p false followUp ++ onWay s.net p followUp)

theorem balanced_start (n : Nat) : Balanced (start n : Exchange T) := fun _ _ => .nil

theorem balanced_send (balanced : Balanced s) (p : Side) (k : Nat) (stamp : Option T) (t : T) (q : Side)
    (followUp : Bool) :
    (seqs (s.trace ++ [⟨p, true, stamp.isSome, k, t⟩]) q.other true followUp).Perm
      (seqs (s.trace ++ [⟨p, true, stamp.isSome, k, t⟩]) q false followUp ++
        onWay (s.net ++ [⟨p.other, k, stamp⟩]) q followUp) := by
  have old := balanced q followUp
  rw [seqs_snoc, seqs_snoc, onWay_snoc]
  by_cases here : p.other = q ∧ stamp.isSome = followUp
  · obtain ⟨rfl, rfl⟩ := here
    simpa [← List.append_assoc] using old.append_right [k]
  · have away : ¬ (p = q.other ∧ stamp.isSome = followUp) :=
        fun ⟨side, kind⟩ => here ⟨by rw [side, other_other], kind⟩
    simpa [here, away] using old

theorem balanced_step (balanced : Balanced s) (lossless : Lossless s a) (stepped : Stepped bound s a s') :
    Balanced s' := by
  intro q followUp
  have old := balanced q followUp
  cases stepped with
  | @event p t k rest todo stage => exact balanced_send balanced p k none t q followUp
  | @followUp p t k rest u todo stage => exact balanced_send balanced p k (some u) t q followUp
  | @deliver i t m found accepts =>
    rw [receive]
    dsimp only
    rw [seqs_snoc, seqs_snoc]
    have taken := onWay_eraseIdx found q followUp
    simp only [Bool.false_eq_true, false_and, and_false, if_false, List.append_nil, true_and]
    rw [List.append_assoc]
    exact old.trans (taken.append_left _)
  | drop inside => exact lossless.elim
  | dup found => exact lossless.elim

theorem event_of_followUp (orderly : Orderly n bound s) {p : Side} {k : Nat} (sent : k ∈ seqs s.trace p true true) :
    k ∈ seqs s.trace p true false := by
  have whole := (orderly.events p).trans (orderly.followUps p).symm
  cases stage : s.stage p with
  | none =>
    rw [stage] at whole
    rwa [List.append_cancel_right whole]
  | some t =>
    have busy := orderly.busy p (by rw [stage]; rfl)
    obtain ⟨j, rest, todo⟩ := List.exists_cons_of_ne_nil busy
    rw [stage, todo] at whole
    have split : seqs s.trace p true false ++ rest = (seqs s.trace p true true ++ [j]) ++ rest := by
      simpa using whole
    rw [List.append_cancel_right split]
    exact List.mem_append_left _ sent

def InOrder (s : Exchange T) : Prop :=
  ∀ p, ∀ k ∈ seqs s.trace p false true, k ∈ seqs s.trace p false false

theorem inOrder_start (n : Nat) : InOrder (start n : Exchange T) := fun _ _ member => by cases member

theorem inOrder_step (orderly : Orderly n bound s) (balanced : Balanced s) (inOrder : InOrder s)
    (ordered : Ordered s a) (stepped : Stepped bound s a s') : InOrder s' := by
  intro q k received
  cases stepped with
  | event todo stage =>
    rw [sendEvent, mem_seqs_snoc] at received ⊢
    simpa using inOrder q k (by simpa using received)
  | followUp todo stage =>
    rw [sendFollowUp, mem_seqs_snoc] at received ⊢
    simpa using inOrder q k (by simpa using received)
  | @deliver i t m found accepts =>
    rw [receive, mem_seqs_snoc] at received ⊢
    rcases received with old | ⟨rfl, -, stamped, rfl⟩
    · exact Or.inl (inOrder q k old)
    · -- The event was sent before the follow-up, and it is not on its way any more.
      have sent : m.seq ∈ seqs s.trace m.dest.other true true :=
        (balanced m.dest true).mem_iff.mpr (List.mem_append_right _
          (mem_onWay.mpr ⟨m, List.mem_of_getElem? found, rfl, stamped, rfl⟩))
      have event := (balanced m.dest false).mem_iff.mp (event_of_followUp orderly sent)
      rcases List.mem_append.mp event with arrived | waiting
      · exact Or.inl arrived
      · obtain ⟨m', member, here, unstamped, number⟩ := mem_onWay.mp waiting
        have apart := ordered.2 _ _ _ _ rfl found stamped m' member here (by simpa using unstamped)
        exact absurd number apart
  | drop inside => exact ordered.1.elim
  | dup found => exact ordered.1.elim

/-! ### Runs -/

theorem balanced_run {actions : List (Action T)} (run : Run (step bound) Lossless (start n) actions s) :
    Traced n bound s ∧ Balanced s := by
  refine run_invariant (I := fun s => Traced n bound s ∧ Balanced s) ?_ ⟨traced_start n bound, balanced_start n⟩ run
  rintro s a s' ⟨traced, balanced⟩ lossless taken
  have stepped := stepped_iff.mp taken
  exact ⟨traced_step traced stepped, balanced_step balanced lossless stepped⟩

structure Tidy (n : Nat) (bound : Side → Nat) (s : Exchange T) : Prop where
  traced : Traced n bound s
  balanced : Balanced s
  inOrder : InOrder s

theorem tidy_start (n : Nat) (bound : Side → Nat) : Tidy n bound (start n : Exchange T) :=
  ⟨traced_start n bound, balanced_start n, inOrder_start n⟩

theorem tidy_step (tidy : Tidy n bound s) (ordered : Ordered s a) (stepped : Stepped bound s a s') :
    Tidy n bound s' :=
  ⟨traced_step tidy.traced stepped, balanced_step tidy.balanced ordered.1 stepped,
    inOrder_step tidy.traced.orderly tidy.balanced tidy.inOrder ordered stepped⟩

theorem tidy_run {actions : List (Action T)} (run : Run (step bound) Ordered (start n) actions s) : Tidy n bound s :=
  run_invariant (fun _ _ _ tidy ordered taken => tidy_step tidy ordered (stepped_iff.mp taken))
    (tidy_start n bound) run

/-- A side that has received one message has counted no follow-up. -/
theorem count_of_receptions (tidy : Tidy n bound s) {p : Side}
    (one : receptions s.trace p ≤ 1) : (s.recorder p).count = 0 := by
  rw [receptions_eq] at one
  by_contra counted
  rw [tidy.traced.orderly.count p] at counted
  obtain ⟨k, member⟩ := List.exists_mem_of_length_pos (Nat.pos_of_ne_zero counted)
  have event := List.length_pos_of_mem (tidy.inOrder p k member)
  omega

/-! ### Nothing is seen twice -/

theorem sent_nodup (orderly : Orderly n bound s) {p : Side} (nodup : (tasks n s.trace p).Nodup) (followUp : Bool) :
    (seqs s.trace p true followUp).Nodup := by
  cases followUp
  · rw [← orderly.events p, List.nodup_append] at nodup
    exact nodup.1
  · rw [← orderly.followUps p, List.nodup_append] at nodup
    exact nodup.1

theorem seqs_nodup (orderly : Orderly n bound s) (balanced : Balanced s) (p : Side) (sent followUp : Bool) :
    (seqs s.trace p sent followUp).Nodup := by
  have receives {q : Side} (nodup : ∀ f, (seqs s.trace q.other true f).Nodup) (f : Bool) :
      (seqs s.trace q false f).Nodup := by
    have whole := (balanced q f).nodup_iff.mp (nodup f)
    exact (List.nodup_append.mp whole).1
  have requests := sent_nodup orderly (p := .initiator) List.nodup_range
  have requestsIn := receives (q := .responder) requests
  have responses := sent_nodup orderly (p := .responder) (requestsIn true)
  have responsesIn := receives (q := .initiator) responses
  cases p <;> cases sent
  · exact responsesIn followUp
  · exact requests followUp
  · exact requestsIn followUp
  · exact responses followUp

/-- The only time at which the side sent or received the event or follow-up `k`. -/
def Only (trace : List (Sighting T)) (p : Side) (sent followUp : Bool) (k : Nat) (t : T) : Prop :=
  ∀ u, ⟨p, sent, followUp, k, u⟩ ∈ trace ↔ u = t

theorem only_of_nodup {trace : List (Sighting T)} {p : Side} {sent followUp : Bool} {k : Nat} {t : T}
    (nodup : (seqs trace p sent followUp).Nodup) (seen : ⟨p, sent, followUp, k, t⟩ ∈ trace) :
    Only trace p sent followUp k t := by
  intro u
  constructor
  · intro member
    have same := List.inj_on_of_nodup_map nodup
      (List.mem_filter.mpr ⟨member, decide_eq_true ⟨rfl, rfl, rfl⟩⟩)
      (List.mem_filter.mpr ⟨seen, decide_eq_true ⟨rfl, rfl, rfl⟩⟩) rfl
    exact congrArg Sighting.time same
  · rintro rfl
    exact seen

/-! ### A side that has counted enough -/

theorem received_perm (traced : Traced n bound s) (balanced : Balanced s) {p : Side}
    (enough : n ≤ (s.recorder p).count) : (seqs s.trace p false true).Perm (List.range n) := by
  have nodup := seqs_nodup traced.orderly balanced p false true
  have inside : seqs s.trace p false true ⊆ List.range n := by
    intro k member
    obtain ⟨t, member⟩ := mem_seqs.mp member
    exact List.mem_range.mpr (traced.numbered.trace _ member)
  refine (nodup.subperm inside).perm_of_length_le ?_
  rw [List.length_range, ← traced.orderly.count p]
  exact enough

/-- It has both times of every number, each of the only packet there was. -/
theorem measured_of_enough (tidy : Tidy n bound s) {p : Side}
    (enough : n ≤ (s.recorder p).count) :
    (s.recorder p).count = n ∧ ∀ k < n, ∃ tx rx, (s.recorder p).sent k = some tx ∧ (s.recorder p).recv k = some rx ∧
      Only s.trace p.other true false k tx ∧ Only s.trace p false false k rx := by
  obtain ⟨traced, balanced, inOrder⟩ := tidy
  have all := received_perm traced balanced enough
  refine ⟨by rw [traced.orderly.count p, all.length_eq, List.length_range], fun k small => ?_⟩
  have followUp : k ∈ seqs s.trace p false true := all.mem_iff.mpr (List.mem_range.mpr small)
  obtain ⟨tx, sent⟩ := Option.isSome_iff_exists.mp (traced.sourced.sentSeen p k followUp)
  obtain ⟨rx, recv⟩ := Option.isSome_iff_exists.mp (traced.sourced.recvSeen p k (inOrder p k followUp))
  exact ⟨tx, rx, sent, recv,
    only_of_nodup (seqs_nodup traced.orderly balanced _ _ _) (traced.sourced.sent p k tx sent),
    only_of_nodup (seqs_nodup traced.orderly balanced _ _ _) (traced.sourced.recv p k rx recv)⟩

/-! ### A side that has not -/

/-- Once the other side has nothing left to send, a follow-up is on its way to a side that has counted
too few; the initiator's are all there only when the responder has taken all requests. -/
def Supplied (n : Nat) (s : Exchange T) : Prop :=
  ∀ p, (s.recorder p).count < n → s.todo p.other = [] →
    (p = .initiator → n ≤ (s.recorder .responder).count) → ∃ m ∈ s.net, m.dest = p ∧ m.stamp.isSome = true

theorem supplied_of_balanced (traced : Traced n bound s) (balanced : Balanced s) : Supplied n s := by
  intro p few idle asked
  have sent : n ≤ (seqs s.trace p.other true true).length := by
    have all := traced.orderly.followUps p.other
    rw [idle, List.append_nil] at all
    rw [all]
    cases p with
    | initiator =>
      have taken := asked rfl
      rwa [traced.orderly.count .responder] at taken
    | responder => exact (List.length_range).ge
  have lengths := (balanced p true).length_eq
  rw [List.length_append, ← traced.orderly.count p] at lengths
  have some : 0 < (onWay s.net p true).length := by omega
  obtain ⟨k, member⟩ := List.exists_mem_of_length_pos some
  obtain ⟨m, member, here, stamped, -⟩ := mem_onWay.mp member
  exact ⟨m, member, here, stamped⟩

end TwoStep.Exchange
