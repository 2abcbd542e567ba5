import Mdelay.Proofs.Timestamps

/-!
# The result files of a loss-free run

Both programs are started with the same `n`. A loop that has been left has counted `n` follow-ups,
so both halves of every number below `n` are in.
-/

namespace Mdelay
open ByteOrder TwoStep Transition

variable {c : Config} {n : Nat} {positive : Prop} {s : Sys c} {a : Exchange Timespec}

theorem started_of_equal (one : 1 ≤ n) (fits : n ≤ Master.entries) (numbers : ∀ r, (c.measureNumber r).toInt = n) :
    c.Started n :=
  ⟨one, fits, numbers .master, (numbers .slave).ge⟩

theorem delay_nanos (tx rx : Timespec) : rx.nanos - tx.nanos = BitVec.ofInt 64 (rx.value - tx.value) := by
  rw [Timespec.nanos_eq, Timespec.nanos_eq, BitVec.sub_eq_add_neg, Int.sub_eq_add_neg, BitVec.ofInt_add,
    BitVec.ofInt_neg]

theorem allocated_of_started (started : c.Started n) (r : Role) : (c.program r).allocated = true := by
  cases r with
  | master => rfl
  | slave =>
    have number := started.slave
    exact decide_eq_true (by omega)

theorem enough_of_left (started : c.Started n) (refines : Refines c n positive s a) (entered : positive) {r : Role}
    (left : (s.host r).loop.status = .left) : n ≤ (a.recorder r.side).count := by
  cases (refines.host r).loops with
  | running status =>
    rw [status] at left
    cases left
  | left _ enough =>
    have bound := le_bound started r.side
    rw [Config.bound, playedBy_side] at bound
    exact bound.trans (enough.resolve_right fun negative => negative.1 entered)

theorem toNat_total_of_refines (refines : Refines c n positive s a) (r : Role) :
    ((c.program r).total (s.host r).loop.st).toNat = (a.recorder r.side).count := by
  rw [Program.total, (refines.host r).meas.count, BitVec.toNat_ofNat, Nat.mod_eq_of_lt (count_lt refines r.side)]

theorem file_of_refines (started : c.Started n) (refines : Refines c n positive s a) {r : Role}
    (fits : (a.recorder r.side).count ≤ (c.program r).cap) :
    ∃ file, (c.program r).results (s.host r).loop.st = some file ∧
      Text.readlines file = (List.range (a.recorder r.side).count).map fun k =>
        fprintfLu (delayBits Timespec.nanos (a.recorder r.side) k) := by
  have total := toNat_total_of_refines refines r
  obtain ⟨file, stored, lines⟩ := store_represents (refines.host r).meas (total.le.trans fits)
  refine ⟨file, ?_, ?_⟩
  · rw [Program.results, if_pos (allocated_of_started started r)]
    exact stored
  · rw [lines]
    change (List.range ((c.program r).total (s.host r).loop.st).toNat).map _ = _
    rw [total]

theorem file_of_left (started : c.Started n) (refines : Refines c n positive s a) (tidy : Exchange.Tidy n c.bound a)
    (entered : positive) {r : Role} (left : (s.host r).loop.status = .left) :
    ∃ file, (c.program r).results (s.host r).loop.st = some file ∧ (Text.readlines file).length = n ∧
      ∀ k < n, ∃ tx rx, s.Only r.peer true (c.program r).event k tx ∧ s.Only r false (c.program r).event k rx ∧
        (Text.readlines file)[k]? = some (fprintfLu (BitVec.ofInt 64 (rx.value - tx.value))) := by
  obtain ⟨count, measured⟩ := Exchange.measured_of_enough tidy (enough_of_left started refines entered left)
  obtain ⟨file, stored, lines⟩ := file_of_refines started refines (count.le.trans (le_cap started r))
  rw [count] at lines
  refine ⟨file, stored, by rw [lines, List.length_map, List.length_range], fun k small => ?_⟩
  obtain ⟨tx, rx, sent, recv, sentOnly, recvOnly⟩ := measured k small
  refine ⟨tx, rx, ?_, ?_, ?_⟩
  · have only := only_sighted started refines small sentOnly
    cases r <;> exact only
  · have only := only_sighted started refines small recvOnly
    cases r <;> exact only
  · rw [lines, List.getElem?_map, List.getElem?_range small, ← delay_nanos]
    simp only [Option.map_some, delayBits, sent, recv, Option.elim_some]

/-- Every line of a finished program is the time between the only sending and the only reception of
its event. -/
theorem result_files_of_run (one : 1 ≤ n) (fits : n ≤ Master.entries)
    (numbers : ∀ r, (c.measureNumber r).toInt = n) (var : Role → Int) (entered : ∀ r, 0 < var r) (ls : List Label)
    (run : Run Sys.step Ordered (Sys.start c var) ls s) (r : Role) (left : (s.host r).loop.status = .left) :
    ∃ file, (c.program r).results (s.host r).loop.st = some file ∧ (Text.readlines file).length = n ∧
      ∀ k < n, ∃ tx rx, s.Only r.peer true (c.program r).event k tx ∧ s.Only r false (c.program r).event k rx ∧
        (Text.readlines file)[k]? = some (fprintfLu (BitVec.ofInt 64 (rx.value - tx.value))) := by
  have started := started_of_equal one fits numbers
  obtain ⟨a, run', refines⟩ := refines_ordered started run
  exact file_of_left started refines (Exchange.tidy_run run') entered left

theorem result_files_of_single : ∃ s file,
    Run Sys.step Ordered (Sys.start .single fun _ => 1) (measurement ⟨7, 0⟩ 0) s ∧
      (Config.single.program .slave).results (s.host .slave).loop.st = some file ∧
      (Text.readlines file).length = 1 := by
  obtain ⟨s, run, left⟩ := run_measurement
  obtain ⟨file, stored, lines, -⟩ := result_files_of_run (n := 1) (by decide) (by decide) (fun _ => rfl) _
    (fun _ => Int.one_pos) _ run .slave (Prod.mk.inj left).2
  exact ⟨s, file, run, stored, lines⟩

end Mdelay
