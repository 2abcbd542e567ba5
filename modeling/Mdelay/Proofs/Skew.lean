import Mdelay.Proofs.EndToEnd
import Mdelay.Protocol.Clocks

/-!
# What the clocks do to the result files

Two runs of one schedule, where the NIC of the slave reads a constant more in the second and
`gettimeofday` reads anything.
-/

namespace Mdelay
open ByteOrder TwoStep Transition

variable {c : Config} {n : Nat} {positive : Prop} {s s' t t' : Sys c} {a a' : Exchange Timespec}

/-- The NIC of the master reads the same in both runs, that of the slave `d` nanoseconds more. -/
def Role.Clocks (d : Int) (r : Role) (ts ts' : Timespec) : Prop :=
  match r with
  | .master => ts' = ts
  | .slave => ts'.value = ts.value + d

instance (d : Int) (ts ts' : Timespec) : (r : Role) → Decidable (r.Clocks d ts ts')
  | .master => inferInstanceAs (Decidable (ts' = ts))
  | .slave => inferInstanceAs (Decidable (ts'.value = ts.value + d))

/-- The same step in both runs, of which the first is in state `s`. What a NIC reads for a follow-up
does not matter. -/
inductive Label.Shifted (d : Int) (s : Sys c) : Label → Label → Prop
  | event {r nic nic'} (tv tv' sw) (clock : r.Clocks d nic nic') :
      Shifted d s (.event r tv sw nic) (.event r tv' sw nic')
  | followUp (r sw nic nic') : Shifted d s (.followUp r sw nic) (.followUp r sw nic')
  | poll (r) : Shifted d s (.poll r) (.poll r)
  | loopback (r) : Shifted d s (.loopback r) (.loopback r)
  | resume : Shifted d s .resume .resume
  | deliver {r i cmsgs cmsgs' nic nic'} (k) (read : nicTime cmsgs = some nic) (read' : nicTime cmsgs' = some nic')
      (clock : ∀ e, s.net[i]? = some e → (decode .big e.bytes).type = (c.program r).event.code →
        r.Clocks d nic nic') :
      Shifted d s (.deliver r i k cmsgs) (.deliver r i k cmsgs')

def Sys.Line (s : Sys c) (r : Role) (k : Nat) (v : BitVec 64) : Prop :=
  ∃ file, (c.program r).results (s.host r).loop.st = some file ∧ (Text.readlines file)[k]? = some (fprintfLu v)

theorem line_iff (started : c.Started n) (refines : Refines c n positive s a) {r : Role}
    (fits : (a.recorder r.side).count ≤ (c.program r).cap) {k : Nat} {v : BitVec 64} :
    s.Line r k v ↔ k < (a.recorder r.side).count ∧ v = delayBits Timespec.nanos (a.recorder r.side) k := by
  obtain ⟨file, stored, lines⟩ := file_of_refines started refines fits
  constructor
  · rintro ⟨file', stored', line⟩
    obtain rfl := Option.some.inj (stored.symm.trans stored')
    rw [lines, List.getElem?_map, Option.map_eq_some_iff] at line
    obtain ⟨j, found, same⟩ := line
    obtain ⟨inside, rfl⟩ := List.getElem?_eq_some_iff.mp found
    rw [List.length_range] at inside
    rw [List.getElem_range] at same
    exact ⟨inside, (fprintfLu_inj same).symm⟩
  · rintro ⟨inside, rfl⟩
    exact ⟨file, stored, by rw [lines, List.getElem?_map, List.getElem?_range inside]; rfl⟩

/-! ### The two runs side by side -/

abbrev sideClocks (d : Int) (p : Side) : Timespec → Timespec → Prop := (playedBy p).Clocks d

theorem sameAction_of_shifted {d : Int} {l l' : Label} (refines : Refines c n positive s a)
    (taken : s.step l = some t)
    (shifted : l.Shifted d s l') : Option.Rel (a.SameAction (sideClocks d)) l.action l'.action := by
  cases shifted with
  | event tv tv' sw clock => exact .some (.event (by rwa [sideClocks, playedBy_side]))
  | followUp => exact .some (.followUp ..)
  | poll | loopback | resume => exact .none
  | @deliver r i _ _ nic nic' k read read' clock =>
    rw [Label.action, Label.action, read, read']
    refine .some (.deliver fun m found event => ?_)
    obtain ⟨e, datagram, carries⟩ := Related.getElem?_right refines.net found
    obtain ⟨e', -, datagram', -, ⟨reached, -⟩, -⟩ := step_deliver.mp taken
    obtain rfl : e = e' := Option.some.inj (datagram.symm.trans datagram')
    obtain rfl : r = playedBy m.dest := address_inj (reached.symm.trans carries.dst)
    rw [sideClocks, playedBy_side]
    refine clock e datagram ((decode_carried carries).1.trans ?_)
    rw [event, event_code]
    rfl

def Paired (c : Config) (n : Nat) (positive : Prop) (d : Int) (s s' : Sys c) : Prop :=
  ∃ a a', Refines c n positive s a ∧ Exchange.Tidy n c.bound a ∧
    Refines c n positive s' a' ∧ Exchange.Tidy n c.bound a' ∧
    Exchange.Alike (sideClocks d) a a'

theorem paired_step (started : c.Started n) {d : Int} {l l' : Label} (paired : Paired c n positive d s s')
    (shifted : l.Shifted d s l') (ordered : Ordered s l) (ordered' : Ordered s' l') (taken : s.step l = some t)
    (taken' : s'.step l' = some t') : Paired c n positive d t t' := by
  obtain ⟨a, a', refines, tidy, refines', tidy', alike⟩ := paired
  have answer := refines_step started refines taken
  have answer' := refines_step started refines' taken'
  have same := sameAction_of_shifted refines taken shifted
  cases action : l.action with
  | none =>
    rw [action] at answer same
    cases action' : l'.action with
    | none =>
      rw [action'] at answer'
      exact ⟨a, a', answer, tidy, answer', tidy', alike⟩
    | some k' =>
      rw [action'] at same
      cases same
  | some k =>
    rw [action] at answer same
    cases action' : l'.action with
    | none =>
      rw [action'] at same
      cases same
    | some k' =>
      rw [action'] at answer' same
      obtain ⟨b, stepped, answer⟩ := answer
      obtain ⟨b', stepped', answer'⟩ := answer'
      have stepped := Exchange.stepped_iff.mp stepped
      have stepped' := Exchange.stepped_iff.mp stepped'
      have related : a.SameAction (sideClocks d) k k' := by
        cases same
        assumption
      exact ⟨b, b', answer, Exchange.tidy_step tidy (ordered_action refines action ordered taken) stepped, answer',
        Exchange.tidy_step tidy' (ordered_action refines' action' ordered' taken') stepped',
        Exchange.alike_step alike related stepped stepped'⟩

theorem paired_run (started : c.Started n) {var : Role → Int} {d : Int} {ls ls' : List Label}
    (same : Along Sys.step (Label.Shifted d) (Sys.start c var) ls ls')
    (run : Run Sys.step Ordered (Sys.start c var) ls s) (run' : Run Sys.step Ordered (Sys.start c var) ls' s') :
    Paired c n (∀ r, 0 < var r) d s s' := by
  refine run_lockstep (R := Paired c n (∀ r, 0 < var r) d) ?_ ?_ same run run'
  · intro s s' l l' t t' paired shifted ordered ordered' taken taken'
    exact paired_step started paired shifted ordered ordered' taken taken'
  · exact ⟨_, _, refines_start started var, Exchange.tidy_start n c.bound, refines_start started var,
      Exchange.tidy_start n c.bound, Exchange.alike_start n⟩

/-! ### Lines -/

/-- A loop that was left has both halves of every number it has counted, and has counted no more
than `n`. -/
theorem complete_of_left (started : c.Started n) (refines : Refines c n positive s a)
    (tidy : Exchange.Tidy n c.bound a)
    {r : Role} (left : (s.host r).loop.status = .left) :
    (a.recorder r.side).count ≤ n ∧ ∀ k < (a.recorder r.side).count,
      ∃ tx rx, (a.recorder r.side).sent k = some tx ∧ (a.recorder r.side).recv k = some rx := by
  cases (refines.host r).loops with
  | running status =>
    rw [status] at left
    cases left
  | left _ enough =>
    rcases enough with enough | ⟨-, one⟩
    · have bound := le_bound started r.side
      rw [Config.bound, playedBy_side] at bound
      obtain ⟨count, measured⟩ := Exchange.measured_of_enough tidy (bound.trans enough)
      refine ⟨count.le, fun k small => ?_⟩
      obtain ⟨tx, rx, sent, recv, -⟩ := measured k (count ▸ small)
      exact ⟨tx, rx, sent, recv⟩
    · have none := Exchange.count_of_receptions tidy one
      exact ⟨by omega, fun k small => by omega⟩

def Role.shift (d : Int) : Role → BitVec 64
  | .master => -BitVec.ofInt 64 d
  | .slave => BitVec.ofInt 64 d

theorem delay_shift {d : Int} {r : Role} {tx tx' rx rx' : Timespec} (sent : r.peer.Clocks d tx tx')
    (received : r.Clocks d rx rx') : rx'.nanos - tx'.nanos = rx.nanos - tx.nanos + r.shift d := by
  cases r with
  | master =>
    obtain rfl : rx' = rx := received
    have sent : tx'.value = tx.value + d := sent
    rw [Timespec.nanos_eq tx', sent, BitVec.ofInt_add, ← Timespec.nanos_eq, Role.shift]
    bv_omega
  | slave =>
    obtain rfl : tx' = tx := sent
    have received : rx'.value = rx.value + d := received
    rw [Timespec.nanos_eq rx', received, BitVec.ofInt_add, ← Timespec.nanos_eq, Role.shift]
    bv_omega

theorem line_shift (started : c.Started n) {d : Int} (paired : Paired c n positive d s s') {r : Role}
    (left : (s.host r).loop.status = .left) (left' : (s'.host r).loop.status = .left) (k : Nat) (v : BitVec 64) :
    s.Line r k v ↔ s'.Line r k (v + r.shift d) := by
  obtain ⟨a, a', refines, tidy, refines', tidy', alike⟩ := paired
  obtain ⟨few, complete⟩ := complete_of_left started refines tidy left
  obtain ⟨few', complete'⟩ := complete_of_left started refines' tidy' left'
  rw [line_iff started refines (few.trans (le_cap started r)),
    line_iff started refines' (few'.trans (le_cap started r)),
    alike.count]
  refine and_congr_right fun inside => ?_
  obtain ⟨tx, rx, sent, recv⟩ := complete k inside
  obtain ⟨tx', rx', sent', recv'⟩ := complete' k (alike.count r.side ▸ inside)
  have clockSent := alike.sent r.side k
  have clockRecv := alike.recv r.side k
  rw [sent, sent'] at clockSent
  rw [recv, recv'] at clockRecv
  have shifted : rx'.nanos - tx'.nanos = rx.nanos - tx.nanos + r.shift d := by
    cases clockSent with
    | some clockSent =>
      cases clockRecv with
      | some clockRecv => exact delay_shift (by cases r <;> exact clockSent) (by cases r <;> exact clockRecv)
  simp only [delayBits, sent, recv, sent', recv', Option.elim_some, shifted]
  exact (BitVec.add_left_inj _).symm

theorem line_unique {r : Role} {k : Nat} {v w : BitVec 64} (left : s.Line r k v) (right : s.Line r k w) : v = w := by
  obtain ⟨file, stored, line⟩ := left
  obtain ⟨file', stored', line'⟩ := right
  obtain rfl := Option.some.inj (stored.symm.trans stored')
  exact fprintfLu_inj (Option.some.inj (line.symm.trans line'))

theorem exists_line (started : c.Started n) {d : Int} (paired : Paired c n positive d s s')
    (entered : positive) {r : Role}
    (left : (s.host r).loop.status = .left) {k : Nat} (small : k < n) : ∃ v, s.Line r k v := by
  obtain ⟨a, -, refines, tidy, -⟩ := paired
  have few := (complete_of_left started refines tidy left).1
  have enough := enough_of_left started refines entered left
  exact ⟨_, (line_iff started refines (few.trans (le_cap started r))).mpr ⟨Nat.lt_of_lt_of_le small enough, rfl⟩⟩

/-- Every line of the slave grows by the difference of the clocks, every line of the master shrinks
by it, and `gettimeofday` changes none. -/
theorem clock_shift (one : 1 ≤ n) (fits : n ≤ Master.entries) (numbers : ∀ r, (c.measureNumber r).toInt = n)
    (var : Role → Int) (d : Int) (ls ls' : List Label)
    (same : Along Sys.step (Label.Shifted d) (Sys.start c var) ls ls')
    (run : Run Sys.step Ordered (Sys.start c var) ls s) (run' : Run Sys.step Ordered (Sys.start c var) ls' s') :
    (∀ r, (s.host r).loop.status = .left → (s'.host r).loop.status = .left →
      (∀ k v, s.Line r k v ↔ s'.Line r k (v + r.shift d)) ∧
      (d = 0 → ∀ k v, s.Line r k v ↔ s'.Line r k v) ∧
      ((∀ r, 0 < var r) → ∀ k < n, ∃ v, s.Line r k v)) ∧
    ((∀ r, (s.host r).loop.status = .left) → (∀ r, (s'.host r).loop.status = .left) →
      ∀ k v w v' w', s.Line .slave k v → s.Line .master k w → s'.Line .slave k v' → s'.Line .master k w' →
        v' + w' = v + w) := by
  have started := started_of_equal one fits numbers
  have paired := paired_run started same run run'
  refine ⟨fun r left left' => ?_, fun left left' k v w v' w' slave master slave' master' => ?_⟩
  · have shift := line_shift started paired left left'
    refine ⟨shift, fun zero k v => ?_, fun entered k small => exists_line started paired entered left small⟩
    have still : r.shift d = 0#64 := by
      rw [zero]
      cases r <;> rfl
    rw [shift, still, BitVec.add_zero]
  · have grown := (line_shift started paired (left .slave) (left' .slave) k v).mp slave
    have shrunk := (line_shift started paired (left .master) (left' .master) k w).mp master
    obtain rfl := line_unique slave' grown
    obtain rfl := line_unique master' shrunk
    rw [Role.shift, Role.shift]
    bv_omega

theorem shifted_iteration {d : Int} {r : Role} (tv tv' : Timeval) {tx tx' : Timespec} (clock : r.Clocks d tx tx') :
    List.Forall₂ (fun l l' => ∀ s : Sys c, Label.Shifted d s l l') (iteration r tv tx) (iteration r tv' tx') := by
  have reads : List.Forall₂ (fun l l' => ∀ s : Sys c, Label.Shifted d s l l')
      [.loopback r, .loopback r, .poll r, .poll r] [.loopback r, .loopback r, .poll r, .poll r] :=
    .cons (fun _ => .loopback r) (.cons (fun _ => .loopback r)
      (.cons (fun _ => .poll r) (.cons (fun _ => .poll r) .nil)))
  exact List.rel_append (.cons (fun _ => .event tv tv' _ clock) reads) (.cons (fun _ => .followUp r ..) reads)

theorem shifted_reception {d : Int} {r : Role} {rx rx' : Timespec} (clock : r.Clocks d rx rx') (s : Sys c) :
    Label.Shifted d s (reception r rx) (reception r rx') :=
  .deliver _ rfl rfl fun _ _ _ => clock

theorem clock_shift_single : ∃ s s',
    Run Sys.step Ordered (Sys.start .single fun _ => 1) (measurement ⟨7, 0⟩ 0) s ∧
    Run Sys.step Ordered (Sys.start .single fun _ => 1) (measurement ⟨8, 5⟩ 4) s' ∧
    ∀ k v, s.Line .slave k v ↔ s'.Line .slave k (v + 4) := by
  obtain ⟨s, run, left⟩ := run_measurement
  obtain ⟨s', run', left'⟩ := run_of_exec Sys.step Ordered (Sys.start .single fun _ => 1) (measurement ⟨8, 5⟩ 4)
    (fun s => (s.host .slave).loop.status) .left (by decide +kernel)
  have same : List.Forall₂ (fun l l' => ∀ s : Sys .single, Label.Shifted 4 s l l') (measurement ⟨7, 0⟩ 0)
      (measurement ⟨8, 5⟩ 4) := by
    refine List.rel_append (List.rel_append (List.rel_append (shifted_iteration _ _ ?_) ?_)
      (shifted_iteration _ _ ?_)) ?_
    · decide
    · exact .cons (shifted_reception (by decide)) (.cons (shifted_reception (by decide)) .nil)
    · decide
    · exact .cons (fun _ => .resume) (.cons (shifted_reception rfl) (.cons (shifted_reception rfl) .nil))
  obtain ⟨each, -⟩ := clock_shift (n := 1) (by decide) (by decide) (fun _ => rfl) (fun _ => 1) 4 _ _
    (along_of_forall₂ same _) run run'
  exact ⟨s, s', run, run', (each .slave (Prod.mk.inj left).2 left').1⟩

end Mdelay
