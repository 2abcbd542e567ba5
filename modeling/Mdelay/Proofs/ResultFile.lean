import Mdelay.Proofs.Counter

/-!
# The result file under loss and reordering

The file is the first `total_measurements` entries of the array. They are the measured ones exactly
when the follow-ups that arrived have no gap and every one has its event.
-/

namespace Mdelay
open ByteOrder TwoStep Transition

def eventTime {T : Type} (hs : List (Half T)) (k : Nat) : Option T :=
  hs.findSome? fun
    | .event j t => if j = k then some t else none
    | .followUp _ _ => none

def followUpTime {T : Type} (hs : List (Half T)) (k : Nat) : Option T :=
  hs.findSome? fun
    | .followUp j t => if j = k then some t else none
    | .event _ _ => none

theorem eventTime_eq {T : Type} {hs : List (Half T)} (distinct : (hs.map Half.key).Nodup) (k : Nat) :
    eventTime hs k = (record hs).recv k := by
  cases found : eventTime hs k with
  | some t =>
    obtain ⟨h, member, seen⟩ := List.exists_of_findSome?_eq_some found
    cases h with
    | event j u =>
      simp only [Option.ite_none_right_eq_some, Option.some.injEq] at seen
      obtain ⟨rfl, rfl⟩ := seen
      exact (recv_eq_of_mem distinct member).symm
    | followUp j u => cases seen
  | none =>
    rw [eventTime, List.findSome?_eq_none_iff] at found
    cases recorded : (record hs).recv k with
    | none => rfl
    | some t =>
      obtain ⟨u, member⟩ := (recv_isSome hs k).mp (by rw [recorded]; rfl)
      simpa using found _ member

theorem followUpTime_eq {T : Type} {hs : List (Half T)} (distinct : (hs.map Half.key).Nodup) (k : Nat) :
    followUpTime hs k = (record hs).sent k := by
  cases found : followUpTime hs k with
  | some t =>
    obtain ⟨h, member, seen⟩ := List.exists_of_findSome?_eq_some found
    cases h with
    | followUp j u =>
      simp only [Option.ite_none_right_eq_some, Option.some.injEq] at seen
      obtain ⟨rfl, rfl⟩ := seen
      exact (sent_eq_of_mem distinct member).symm
    | event j u => cases seen
  | none =>
    rw [followUpTime, List.findSome?_eq_none_iff] at found
    cases recorded : (record hs).sent k with
    | none => rfl
    | some t =>
      obtain ⟨u, member⟩ := (sent_isSome hs k).mp (by rw [recorded]; rfl)
      simpa using found _ member

def measuredSeqs {T : Type} (cap : Nat) (hs : List (Half T)) : List Nat :=
  (List.range cap).filter fun k => (eventTime hs k).isSome && (followUpTime hs k).isSome

/-- The file is written, its lines are those of the measured numbers, and each is the number's
reception time minus its send time. -/
def WritesMeasured (p : Program) (st : p.State) (hs : List (Half (BitVec 64))) : Prop :=
  ∃ file, p.results st = some file ∧
    List.range (p.total st).toNat = measuredSeqs p.cap hs ∧
    Text.readlines file = (measuredSeqs p.cap hs).map fun k =>
      fprintfLu ((eventTime hs k).getD 0 - (followUpTime hs k).getD 0)

theorem measuredSeqs_eq {T : Type} {cap : Nat} {hs : List (Half T)} (distinct : (hs.map Half.key).Nodup) :
    measuredSeqs cap hs = (List.range cap).filter (record hs).complete := by
  apply List.filter_congr
  intro k _
  rw [eventTime_eq distinct, followUpTime_eq distinct, Bool.and_comm]
  rfl

/-- On datagrams that each arrive at most once, the file holds exactly the measured numbers when
the follow-ups that arrived are those of the numbers below some `m`, each with its event, and the
array was allocated. -/
theorem result_file_iff (role : Role) (e : Endian) (measureNumber : BitVec 32) (var : Int)
    (inputs : List (Stack × Recvmsg)) (l : (role.program e measureNumber).Loop)
    (run : Run (role.program e measureNumber).turn (role.program e measureNumber).Feed
      ((role.program e measureNumber).enter var) inputs l)
    (distinct : (((role.program e measureNumber).halves inputs).map Half.key).Nodup) :
    WritesMeasured (role.program e measureNumber) l.st ((role.program e measureNumber).halves inputs) ↔
      (role.program e measureNumber).allocated = true ∧
        Gapless ((role.program e measureNumber).halves inputs) := by
  obtain ⟨ready, lawful⟩ := role.lawful e measureNumber
  have small := role.cap_lt e measureNumber
  generalize role.program e measureNumber = p at *
  have inside := inside_of_run run
  obtain ⟨-, rep⟩ := run_represents lawful run
  have fits : (record (p.halves inputs)).count ≤ p.cap := by
    rw [count_eq_card inside distinct]
    exact (Finset.card_filter_le _ _).trans_eq (Finset.card_range _)
  have total : (p.total l.st).toNat = (record (p.halves inputs)).count := by
    rw [toNat_total lawful run, Nat.mod_eq_of_lt (by omega)]
  rw [← range_count_iff inside distinct]
  constructor
  · rintro ⟨file, stored, seqs, -⟩
    rw [total, measuredSeqs_eq distinct] at seqs
    refine ⟨?_, seqs⟩
    cases allocated : p.allocated
    · simp [Program.results, allocated, storeResultsToFile] at stored
    · rfl
  · rintro ⟨allocated, seqs⟩
    obtain ⟨file, stored, lines⟩ := store_represents rep (total ▸ fits)
    refine ⟨file, ?_, by rw [total, measuredSeqs_eq distinct, seqs], ?_⟩
    · rw [Program.results, if_pos allocated]
      exact stored
    · rw [lines, measuredSeqs_eq distinct, ← seqs, ← total]
      apply List.map_congr_left
      intro k _
      rw [eventTime_eq distinct, followUpTime_eq distinct, delayBits]
      congr 2 <;> cases (record (p.halves inputs)).recv k <;> cases (record (p.halves inputs)).sent k <;> rfl

/-- One follow-up whose event was lost: a line is written for a number that was never measured. -/
theorem result_file_lone_follow_up :
    let p := Slave.program .little 1
    let input := arrival ⟨0, 1, 0, 5, 0, 0⟩ ⟨0, 0⟩
    ∃ l, Run p.turn p.Feed (p.enter 1) [input] l ∧ l.status = .left ∧
      ((p.halves [input]).map Half.key).Nodup ∧
      (p.results l.st).map Text.readlines = some ["18446744073709551611\n".toList] ∧
      measuredSeqs p.cap (p.halves [input]) = [] ∧
      ¬ WritesMeasured p l.st (p.halves [input]) := by
  intro p input
  have halves : p.halves [input] = [.followUp 0 5] := rfl
  obtain ⟨l, run, seen⟩ := run_of_exec p.turn p.Own (p.enter 1) [input]
    (fun l => (l.status, p.total l.st, (p.results l.st).map Text.readlines))
    (.left, 1, some ["18446744073709551611\n".toList]) (by decide +kernel)
  rw [Prod.mk.injEq, Prod.mk.injEq] at seen
  obtain ⟨left, total, lines⟩ := seen
  have nothing : measuredSeqs p.cap (p.halves [input]) = [] := rfl
  refine ⟨l, run_feed_of_own run, left, ?_, lines, nothing, ?_⟩
  · rw [halves]
    exact List.nodup_singleton _
  · rintro ⟨file, -, seqs, -⟩
    rw [total, nothing] at seqs
    cases seqs

theorem result_file_one_measurement :
    let p := Slave.program .little 1
    let inputs := [arrival ⟨0, 0, 0, 0, 0, 0⟩ ⟨0, 9⟩, arrival ⟨0, 1, 0, 5, 0, 0⟩ ⟨0, 0⟩]
    ∃ l, Run p.turn p.Feed (p.enter 1) inputs l ∧ WritesMeasured p l.st (p.halves inputs) := by
  intro p inputs
  have halves : p.halves inputs = [.event 0 9, .followUp 0 5] := rfl
  obtain ⟨l, run, -⟩ := run_of_exec p.turn p.Own (p.enter 1) inputs
    (fun l => l.status) .left (by decide +kernel)
  have distinct : ((p.halves inputs).map Half.key).Nodup := by
    rw [halves]
    decide
  have gapless : Gapless (p.halves inputs) := by
    refine ⟨1, fun k => ?_, fun k small => ?_⟩
    · simp [halves, HasFollowUp]
    · obtain rfl : k = 0 := by omega
      exact ⟨9, by simp [halves]⟩
  exact ⟨l, run_feed_of_own run,
    (result_file_iff .slave .little 1 1 inputs l (run_feed_of_own run) distinct).mpr ⟨rfl, gapless⟩⟩

end Mdelay
