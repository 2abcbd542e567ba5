import Mathlib.Data.Set.Card
import Mdelay.Proofs.Recording

/-!
# The measurement counter

`total_measurements` is bumped by every follow-up. It counts measurements exactly in the runs in
which every follow-up is the first of its number and comes after its event.
-/

namespace Mdelay
open ByteOrder TwoStep Transition

def measured {T : Type} (hs : List (Half T)) : Set Nat := {k | HasEvent hs k ∧ HasFollowUp hs k}

/-- The inputs of a run on the program's own datagrams, each with its number inside the array. -/
def Program.Own (p : Program) (_ : p.Loop) (input : Stack × Recvmsg) : Prop :=
  ∃ h, p.half input.2 = some h ∧ h.seq < p.cap

instance (p : Program) (l : p.Loop) (input : Stack × Recvmsg) : Decidable (p.Own l input) :=
  match own : p.half input.2 with
  | some h => decidable_of_iff (h.seq < p.cap) (by simp [Program.Own, own])
  | none => isFalse (by simp [Program.Own, own])

theorem run_feed_of_own {p : Program} {l l' : p.Loop} {inputs : List (Stack × Recvmsg)}
    (run : Run p.turn p.Own l inputs l') : Run p.turn p.Feed l inputs l' :=
  run_mono (fun _ _ own => Or.inl own) run

theorem inside_of_run {p : Program} {l l' : p.Loop} {inputs : List (Stack × Recvmsg)}
    (run : Run p.turn p.Feed l inputs l') : ∀ h ∈ p.halves inputs, h.seq < p.cap := by
  induction inputs generalizing l with
  | nil => simp [Program.halves]
  | cons input inputs ih =>
    obtain ⟨feed, u, -, rest⟩ := run
    intro h member
    rw [Program.halves, List.filterMap_cons] at member
    rcases feed with ⟨h', own, inside⟩ | ⟨src, cmsgs, empty⟩
    · rw [own] at member
      rcases List.mem_cons.mp member with rfl | later
      · exact inside
      · exact ih rest h later
    · rw [empty] at member
      exact ih rest h member

theorem ncard_measured {T : Type} {hs : List (Half T)} {bound : Nat} (inside : ∀ h ∈ hs, h.seq < bound) :
    (measured hs).ncard = ((record hs).completed bound).card := by
  rw [← Set.ncard_coe_finset]
  congr 1
  ext k
  rw [Finset.mem_coe, mem_completed, complete_iff]
  constructor
  · rintro ⟨⟨t, member⟩, followUp⟩
    exact ⟨inside _ member, followUp, ⟨t, member⟩⟩
  · rintro ⟨-, followUp, event⟩
    exact ⟨event, followUp⟩

theorem count_mod_iff {T : Type} {hs : List (Half T)} {bound : Nat} (small : bound + 1 < 2 ^ 64) :
    (∀ pre, pre <+: hs → (record pre).count % 2 ^ 64 = ((record pre).completed bound).card) ↔
      ∀ pre, pre <+: hs → (record pre).count = ((record pre).completed bound).card := by
  have card_le (pre : List (Half T)) : ((record pre).completed bound).card ≤ bound := by
    calc ((record pre).completed bound).card ≤ (Finset.range bound).card := Finset.card_filter_le _ _
      _ = bound := Finset.card_range bound
  have no_wrap {pre : List (Half T)} (same : (record pre).count = ((record pre).completed bound).card) :
      (record pre).count % 2 ^ 64 = (record pre).count := by
    have := card_le pre
    omega
  constructor
  · intro right pre
    induction pre using List.reverseRecOn with
    | nil => simp [record, Recorder.empty, Recorder.completed, Recorder.complete]
    | append_singleton pre h ih =>
      intro short
      have before := ih ((List.prefix_append pre [h]).trans short)
      have now := right _ short
      have step : (record (pre ++ [h])).count ≤ (record pre).count + 1 := by
        rw [record_snoc]
        cases h <;> simp
      have := card_le pre
      omega
  · intro right pre short
    rw [no_wrap (right pre short), right pre short]

theorem left_by_count {p : Program} {ready : p.State → Prop} (lawful : Lawful p ready) {var : Int}
    (positive : 0 < var) {inputs : List (Stack × Recvmsg)} {l : p.Loop}
    (run : Run p.turn p.Own (p.enter var) inputs l) :
    ready l.st ∧ (l.status = .running → 0 < l.var) ∧ (l.status = .left → p.bound ≤ p.total l.st) := by
  refine run_invariant (I := fun l => ready l.st ∧ (l.status = .running → 0 < l.var) ∧
    (l.status = .left → p.bound ≤ p.total l.st)) ?_ ⟨lawful.start.1, fun _ => positive, fun left => by cases left⟩ run
  rintro l input l' ⟨isReady, varPositive, -⟩ own turned
  have running := running_of_turn turned
  rcases turn_feed lawful isReady (Or.inl own) turned with ⟨h, got, st, -, -, gotPositive, rfl, kept, -⟩ | ⟨none, -⟩
  · have varPositive := varPositive running
    by_cases counted : p.total st < p.bound
    · rw [afterRecv_of_test ⟨Int.ne_of_gt gotPositive, varPositive, counted⟩]
      exact ⟨kept, fun _ => Int.one_pos, fun left => by cases left⟩
    · rw [afterRecv_of_not_test fun all => counted all.2.2]
      exact ⟨kept, fun continued => (by cases continued), fun _ => BitVec.not_lt.mp counted⟩
  · obtain ⟨h, own, -⟩ := own
    rw [none] at own
    cases own

theorem Role.cap_lt (role : Role) (e : Endian) (measureNumber : BitVec 32) :
    (role.program e measureNumber).cap + 1 < 2 ^ 64 := by
  cases role with
  | master =>
    change 100 + 1 < 2 ^ 64
    decide
  | slave =>
    have := BitVec.toInt_lt (x := measureNumber)
    simp only [Role.program, Slave.program, Slave.entries]
    omega

theorem toNat_total {p : Program} {ready : p.State → Prop} (lawful : Lawful p ready) {var : Int}
    {inputs : List (Stack × Recvmsg)} {l : p.Loop} (run : Run p.turn p.Feed (p.enter var) inputs l) :
    (p.total l.st).toNat = (record (p.halves inputs)).count % 2 ^ 64 := by
  rw [Program.total, (run_represents lawful run).2.count, BitVec.toNat_ofNat]

/-- The counter counts measurements in every state of a run exactly when every follow-up the run
processes is the first of its number and comes after its event; the loop is then left only once
`measure_number` distinct measurements are complete. -/
theorem counter_counts_measurements_iff (role : Role) (e : Endian) (measureNumber : BitVec 32) (var : Int)
    (inputs : List (Stack × Recvmsg)) (l : (role.program e measureNumber).Loop)
    (run : Run (role.program e measureNumber).turn (role.program e measureNumber).Own
      ((role.program e measureNumber).enter var) inputs l) :
    let p := role.program e measureNumber
    ((∀ pre s, pre <+: inputs → Run p.turn p.Own (p.enter var) pre s →
        (p.total s.st).toNat = (measured (p.halves pre)).ncard) ↔ Paired (p.halves inputs)) ∧
      (Paired (p.halves inputs) → 0 < var → l.status = .left →
        p.bound.toNat ≤ (measured (p.halves inputs)).ncard) := by
  intro p
  obtain ⟨ready, lawful⟩ := role.lawful e measureNumber
  have inside := inside_of_run (run_feed_of_own run)
  have counts {pre : List (Stack × Recvmsg)} {s : p.Loop} (short : pre <+: inputs)
      (run : Run p.turn p.Own (p.enter var) pre s) :
      (p.total s.st).toNat = (measured (p.halves pre)).ncard ↔
        (record (p.halves pre)).count % 2 ^ 64 = ((record (p.halves pre)).completed p.cap).card := by
    have insidePre : ∀ h ∈ p.halves pre, h.seq < p.cap := fun h member =>
      inside h ((short.filterMap _).subset member)
    rw [toNat_total lawful (run_feed_of_own run), ncard_measured insidePre]
  -- Every prefix of the halves is that of a prefix of the run.
  have prefixes : (∀ pre s, pre <+: inputs → Run p.turn p.Own (p.enter var) pre s →
        (p.total s.st).toNat = (measured (p.halves pre)).ncard) ↔
      ∀ hs, hs <+: p.halves inputs → (record hs).count % 2 ^ 64 = ((record hs).completed p.cap).card := by
    constructor
    · intro right hs front
      obtain ⟨pre, short, rfl⟩ := List.prefix_filterMap_iff.mp front
      obtain ⟨post, whole⟩ := id short
      obtain ⟨s, first, -⟩ := run_append.mp (whole ▸ run)
      exact (counts short first).mp (right pre s short first)
    · intro right pre s short first
      exact (counts short first).mpr (right _ (short.filterMap _))
  have paired : (∀ pre s, pre <+: inputs → Run p.turn p.Own (p.enter var) pre s →
      (p.total s.st).toNat = (measured (p.halves pre)).ncard) ↔ Paired (p.halves inputs) := by
    rw [prefixes, count_mod_iff (role.cap_lt e measureNumber), count_eq_completed_iff inside]
  refine ⟨paired, fun isPaired positive left => ?_⟩
  rw [← paired.mpr isPaired inputs l (List.prefix_refl inputs) run]
  exact (left_by_count lawful positive run).2.2 left

theorem counter_counts_lone_follow_up :
    let p := Slave.program .little 1
    let input := arrival ⟨0, 1, 0, 5, 0, 0⟩ ⟨0, 0⟩
    ∃ l, Run p.turn p.Own (p.enter 1) [input] l ∧ (l.status, p.total l.st) = (.left, 1) ∧
      measured (p.halves [input]) = ∅ := by
  intro p input
  have halves : p.halves [input] = [.followUp 0 5] := rfl
  obtain ⟨l, run, seen⟩ := run_of_exec p.turn p.Own (p.enter 1) [input]
    (fun l => (l.status, p.total l.st)) (.left, 1) (by decide +kernel)
  refine ⟨l, run, seen, ?_⟩
  rw [halves]
  ext k
  simp [measured, HasEvent]

theorem counter_counts_one_measurement :
    let p := Slave.program .little 1
    let inputs := [arrival ⟨0, 0, 0, 0, 0, 0⟩ ⟨0, 9⟩, arrival ⟨0, 1, 0, 5, 0, 0⟩ ⟨0, 0⟩]
    ∃ l, Run p.turn p.Own (p.enter 1) inputs l ∧
      ∀ pre s, pre <+: inputs → Run p.turn p.Own (p.enter 1) pre s →
        (p.total s.st).toNat = (measured (p.halves pre)).ncard := by
  intro p inputs
  have halves : p.halves inputs = [] ++ [.event 0 9] ++ [.followUp 0 5] := rfl
  obtain ⟨l, run, -⟩ := run_of_exec p.turn p.Own (p.enter 1) inputs
    (fun l => l.status) .left (by decide +kernel)
  refine ⟨l, run, (counter_counts_measurements_iff .slave .little 1 1 inputs l run).1.mpr ?_⟩
  change Paired (p.halves inputs)
  rw [halves, paired_snoc, paired_snoc]
  simp [Paired, HasEvent, HasFollowUp]

end Mdelay
