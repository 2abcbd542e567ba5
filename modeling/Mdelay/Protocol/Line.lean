import Mdelay.Protocol.Delivery

/-!
# Exchanges over a link that keeps its order

What is on its way stands in the order it was sent in. So the first message for a side never overtakes
its event, and a side that has counted everything has left nothing on its way.
-/

namespace TwoStep.Exchange

variable {T : Type*} {bound : Side → Nat} {n : Nat} {s s' : Exchange T} {a : Action T} {p : Side}

/-- No event stands behind its follow-up. -/
def Lined (s : Exchange T) : Prop :=
  s.net.Pairwise fun m m' => m.dest = m'.dest → m.stamp.isSome = true → m'.stamp = none → m.seq ≠ m'.seq

theorem lined_start (n : Nat) : Lined (start n : Exchange T) := .nil

theorem lined_step (orderly : Orderly n bound s) (balanced : Balanced s) (lined : Lined s) (lossless : Lossless s a)
    (stepped : Stepped bound s a s') : Lined s' := by
  have orderly' := orderly_step orderly stepped
  have balanced' := balanced_step balanced lossless stepped
  cases stepped with
  | @event p t k rest todo stage =>
    refine List.pairwise_append.mpr ⟨lined, List.pairwise_singleton _ _, ?_⟩
    intro m member m' last here stamped _ same
    obtain rfl := List.mem_singleton.mp last
    -- The event that goes with `m` was sent before this one, and no event is sent twice.
    have followUp : m.seq ∈ seqs s.trace p true true := by
      have sent : m.seq ∈ seqs s.trace p.other.other true true :=
        (balanced p.other true).mem_iff.mpr (List.mem_append_right _ (mem_onWay.mpr ⟨m, member, here, stamped, rfl⟩))
      rwa [other_other] at sent
    have nodup := seqs_nodup orderly' balanced' p true false
    rw [sendEvent, seqs_snoc, if_pos ⟨rfl, rfl, rfl⟩] at nodup
    have before := event_of_followUp orderly followUp
    rw [same] at before
    exact (List.nodup_append.mp nodup).2.2 _ before _ List.mem_cons_self rfl
  | followUp todo stage =>
    refine List.pairwise_append.mpr ⟨lined, List.pairwise_singleton _ _, ?_⟩
    intro m _ m' last _ _ unstamped
    obtain rfl := List.mem_singleton.mp last
    cases unstamped
  | deliver found accepts => exact lined.sublist (List.eraseIdx_sublist ..)
  | drop | dup => exact lossless.elim

/-- No event of the number of the first message for a side is still on its way, if that is a follow-up. -/
theorem apart_of_lined (lined : Lined s) {i : Nat} {m : Message T} (found : s.net[i]? = some m)
    (first : ∀ j < i, ∀ m' ∈ s.net[j]?, m'.dest ≠ m.dest) (stamped : m.stamp.isSome = true) :
    ∀ m' ∈ s.net, m'.dest = m.dest → m'.stamp = none → m'.seq ≠ m.seq := by
  intro m' member here unstamped same
  obtain ⟨j, found'⟩ := List.mem_iff_getElem?.mp member
  rcases Nat.lt_trichotomy j i with before | rfl | behind
  · exact first j before m' found' here
  · obtain rfl := Option.some.inj (found.symm.trans found')
    rw [unstamped] at stamped
    cases stamped
  · obtain ⟨inside, rfl⟩ := List.getElem?_eq_some_iff.mp found
    obtain ⟨inside', rfl⟩ := List.getElem?_eq_some_iff.mp found'
    exact List.pairwise_iff_getElem.mp lined i j inside inside' behind here.symm stamped unstamped same.symm

/-! ### A side that has counted enough -/

theorem seqs_length_le (traced : Traced n bound s) (balanced : Balanced s) (p : Side) (sent followUp : Bool) :
    (seqs s.trace p sent followUp).length ≤ n := by
  have inside : seqs s.trace p sent followUp ⊆ List.range n := by
    intro k member
    obtain ⟨t, seen⟩ := mem_seqs.mp member
    exact List.mem_range.mpr (traced.numbered.trace _ seen)
  have few := ((seqs_nodup traced.orderly balanced p sent followUp).subperm inside).length_le
  rwa [List.length_range] at few

/-- It has received the follow-up and the event of every number, and there were no more. -/
theorem nothing_onWay (tidy : Tidy n bound s) (enough : n ≤ (s.recorder p).count) :
    ∀ m ∈ s.net, m.dest ≠ p := by
  have all := received_perm tidy.traced tidy.balanced enough
  have none (followUp : Bool) : onWay s.net p followUp = [] := by
    have received : List.range n ⊆ seqs s.trace p false followUp := by
      intro k inside
      have counted := all.mem_iff.mpr inside
      cases followUp with
      | false => exact tidy.inOrder p k counted
      | true => exact counted
    have least := (List.nodup_range.subperm received).length_le
    have most := seqs_length_le tidy.traced tidy.balanced p.other true followUp
    have lengths := (tidy.balanced p followUp).length_eq
    rw [List.length_append] at lengths
    rw [List.length_range] at least
    exact List.eq_nil_of_length_eq_zero (by omega)
  intro m member here
  have waiting : m.seq ∈ onWay s.net p m.stamp.isSome := mem_onWay.mpr ⟨m, member, here, rfl, rfl⟩
  rw [none] at waiting
  cases waiting

/-- The other side has nothing more to send, and the responder has counted enough as well. -/
theorem other_done (traced : Traced n bound s) (balanced : Balanced s) (enough : n ≤ (s.recorder p).count) :
    s.todo p.other = [] ∧ n ≤ (s.recorder .responder).count := by
  have all := traced.orderly.followUps p.other
  have lengths := (balanced p true).length_eq
  rw [List.length_append] at lengths
  have counted := traced.orderly.count p
  have whole := congrArg List.length all
  rw [List.length_append] at whole
  cases p with
  | initiator =>
    have taken := seqs_length_le traced balanced .responder false true
    have asked : (tasks n s.trace Side.initiator.other).length = (seqs s.trace .responder false true).length := rfl
    have answers := traced.orderly.count .responder
    exact ⟨List.eq_nil_of_length_eq_zero (by omega), by omega⟩
  | responder =>
    have asked : (tasks n s.trace Side.responder.other).length = n := List.length_range
    exact ⟨List.eq_nil_of_length_eq_zero (by omega), enough⟩

end TwoStep.Exchange
