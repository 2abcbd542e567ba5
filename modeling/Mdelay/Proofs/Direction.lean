import Mdelay.Proofs.EndToEnd
import Mdelay.Proofs.LoopExit

/-!
# Which file holds which direction

The master writes `master_to_slave_latency.txt` and has measured the DELAY_RESP, which travel from
the slave to the master; the slave measures the DELAY_REQ and writes the other file.
-/

namespace Mdelay
open ByteOrder TwoStep Transition

variable {c : Config} {n : Nat} {s t : Sys c} {r : Role}

/-! ### A loop whose variable was not positive at the entry -/

def Sys.received (s : Sys c) (r : Role) : Nat := s.trace.countP fun o => o.host = r ∧ o.sent = false

/-- The program waits for its first datagram, or has taken it and will leave the loop. -/
def Sys.TakesOne (s : Sys c) (r : Role) : Prop :=
  s.received r ≤ 1 ∧ (s.host r).loop.var ≤ 0 ∧
    ((s.host r).loop.status = .running → r = .master ∨ (s.host r).sender = none → s.received r = 0)

theorem takesOne_congr (one : s.TakesOne r) (received : t.received r = s.received r)
    (loop : (t.host r).loop = (s.host r).loop) (calls : (t.host r).sender = none → (s.host r).sender = none) :
    t.TakesOne r := by
  unfold Sys.TakesOne
  rw [received, loop]
  exact ⟨one.1, one.2.1, fun running free => one.2.2 running (free.imp_right calls)⟩

/-- A host that goes on sending, or another host that does anything. -/
theorem takesOne_setHost (one : s.TakesOne r) {r' : Role} {h : Host (c.program r')} {net : List Datagram}
    {trace : List Obs}
    (same : r' = r → h.loop = (s.host r').loop ∧ (h.sender = none → (s.host r').sender = none))
    (received : (trace.countP fun o => o.host = r ∧ o.sent = false) = s.received r) :
    ({ s.setHost r' h with net := net, trace := trace } : Sys c).TakesOne r := by
  by_cases here : r' = r
  · subst here
    obtain ⟨loop, calls⟩ := same rfl
    refine takesOne_congr one received ?_ ?_
    · show ((s.setHost r' h).host r').loop = _
      rw [setHost_self, loop]
    · show ((s.setHost r' h).host r').sender = none → _
      rw [setHost_self]
      exact calls
  · have other : (s.setHost r' h).host r = s.host r := setHost_of_ne (Ne.symm here) h
    refine takesOne_congr one received ?_ ?_
    · exact congrArg Host.loop other
    · exact fun none => (congrArg Host.sender other).symm.trans none

theorem takesOne_sendto (one : s.TakesOne r) (r' : Role) (sw nic : Timespec) (out : Sender × Option (List Byte)) :
    (s.sendto r' sw nic out).TakesOne r := by
  obtain ⟨x', bytes⟩ := out
  have busy (q : ErrQueue) : r' = r → (s.host r').loop = (s.host r').loop ∧ (some x' = none → (s.host r').sender = none) :=
    fun _ => ⟨rfl, fun absurd => by cases absurd⟩
  cases bytes with
  | none => exact takesOne_setHost one (busy (s.host r').errq) rfl
  | some bytes =>
    refine takesOne_setHost one (busy (s.host r').errq) ?_
    rw [List.countP_append, List.countP_singleton]
    simp [Obs.of, Sys.received]

theorem afterRecv_of_var {p : Program} {l : p.Loop} (idle : l.var ≤ 0) (got : Int) (st : p.State) :
    p.afterRecv l got st = ⟨.left, 0, st⟩ :=
  afterRecv_of_not_test fun test => absurd test.2.1 (by omega)

/-- Only a call of the sender keeps the loop running. -/
theorem var_receive {p : Program} {h : Host p} (idle : h.loop.var ≤ 0) (outcome : DoRecv p.State) :
    (h.receive outcome).loop.var ≤ 0 ∧
      ((h.receive outcome).loop.status = .running → ∃ got st x, outcome = .sending got st x) := by
  cases outcome with
  | returned got st =>
    have after : (h.receive (.returned got st)).loop = ⟨.left, 0, st⟩ := afterRecv_of_var idle got st
    rw [after]
    exact ⟨Int.le_refl 0, fun running => by cases running⟩
  | sending got st x => exact ⟨idle, fun _ => ⟨got, st, x, rfl⟩⟩
  | exited => exact ⟨idle, fun running => by cases running⟩
  | faulted => exact ⟨idle, fun running => by cases running⟩

theorem takesOne_deliver (one : s.TakesOne r) {r' : Role} (waits : (s.host r').waits r' = true) {i : Nat} {k : Stack}
    {d : Datagram} {cmsgs : List Cmsghdr} {nic : Timespec} :
    ({ s.setHost r' ((s.host r').receive
          ((c.program r').doRecv k (.message d.bytes d.src cmsgs) (s.host r').loop.st)) with
        net := s.net.eraseIdx i
        trace := s.trace ++ [.of r' false d.bytes nic] } : Sys c).TakesOne r := by
  have received : (s.trace ++ [Obs.of r' false d.bytes nic]).countP (fun o => o.host = r ∧ o.sent = false) =
      s.received r + if r' = r then 1 else 0 := by
    rw [List.countP_append, List.countP_singleton]
    by_cases here : r' = r <;> simp [Obs.of, Sys.received, here]
  by_cases here : r' = r
  · subst here
    obtain ⟨idle, runs⟩ := var_receive one.2.1
      ((c.program r').doRecv k (.message d.bytes d.src cmsgs) (s.host r').loop.st)
    simp only [Host.waits, Bool.and_eq_true, Bool.or_eq_true, decide_eq_true_eq, Option.isNone_iff_eq_none] at waits
    obtain ⟨⟨-, running⟩, free⟩ := waits
    have first : s.received r' = 0 := one.2.2 running free
    rw [if_pos rfl, first] at received
    have host := setHost_self s r' ((s.host r').receive
      ((c.program r').doRecv k (.message d.bytes d.src cmsgs) (s.host r').loop.st))
    refine ⟨received.le, ?_, fun again free => ?_⟩
    · show ((s.setHost r' _).host r').loop.var ≤ 0
      rw [host]
      exact idle
    · change ((s.setHost r' _).host r').loop.status = .running at again
      change _ ∨ ((s.setHost r' _).host r').sender = none at free
      rw [host] at again free
      obtain ⟨got, st, x, sending⟩ := runs again
      cases r' with
      | master =>
        have calls := congrArg DoRecv.call sending
        cases (Master.call_doRecv _ _ _ _).symm.trans calls
      | slave =>
        rw [sending] at free
        rcases free with absurd | absurd <;> cases absurd
  · refine takesOne_setHost one (fun same => absurd same here) ?_
    rw [received, if_neg here]
    rfl

theorem takesOne_step (one : s.TakesOne r) {l : Label} (taken : s.step l = some t) : t.TakesOne r := by
  cases l with
  | event r' tv sw nic =>
    obtain ⟨x, -, -, rfl⟩ := step_event.mp taken
    exact takesOne_sendto one r' sw nic _
  | followUp r' sw nic =>
    obtain ⟨x, -, -, rfl⟩ := step_followUp.mp taken
    exact takesOne_sendto one r' sw nic _
  | poll r' =>
    obtain ⟨x, -, -, rfl⟩ := step_poll.mp taken
    exact takesOne_setHost one (fun _ => ⟨rfl, fun absurd => by cases absurd⟩) rfl
  | loopback r' =>
    obtain ⟨q, -, rfl⟩ := step_loopback.mp taken
    exact takesOne_setHost one (fun _ => ⟨rfl, id⟩) rfl
  | resume =>
    obtain ⟨x, -, -, rfl⟩ := step_resume.mp taken
    cases r with
    | master => exact takesOne_setHost one (fun absurd => by cases absurd) rfl
    | slave =>
      unfold Sys.TakesOne
      rw [setHost_self, afterRecv_of_var one.2.1]
      exact ⟨one.1, Int.le_refl 0, fun running => by cases running⟩
  | deliver r' i k cmsgs =>
    obtain ⟨d, nic, -, -, ⟨-, waits⟩, rfl⟩ := step_deliver.mp taken
    exact takesOne_deliver one waits
  | drop i =>
    obtain ⟨-, rfl⟩ := step_drop.mp taken
    exact one
  | dup i =>
    obtain ⟨d, -, rfl⟩ := step_dup.mp taken
    exact one

theorem received_le_one {var : Role → Int} (idle : var r ≤ 0) {ls : List Label}
    (run : Run Sys.step Any (Sys.start c var) ls s) : s.received r ≤ 1 := by
  have start : (Sys.start c var).TakesOne r := ⟨Nat.zero_le 1, idle, fun _ _ => rfl⟩
  exact (run_invariant (fun _ _ _ one _ taken => takesOne_step one taken) start run).1

theorem received_of_refines {positive : Prop} {a : Exchange Timespec} (refines : Refines c n positive s a) (r : Role) :
    s.received r = receptions a.trace r.side := by
  rw [Sys.received, receptions, refines.trace, List.countP_map]
  refine List.countP_congr fun o _ => ?_
  have same : playedBy o.side = r ↔ o.side = r.side :=
    ⟨fun host => by rw [← host, side_playedBy], fun side => by rw [side, playedBy_side]⟩
  simp [sighted, same]

/-! ### The files -/

/-- The packet of `r`'s peer with the number `k` was under way for `v` nanoseconds. -/
def Sys.OneWay (s : Sys c) (r : Role) (k : Nat) (v : BitVec 64) : Prop :=
  ∃ tx rx, s.Only r.peer true (c.program r).event k tx ∧ s.Only r false (c.program r).event k rx ∧
    v = BitVec.ofInt 64 (rx.value - tx.value)

theorem oneWay_unique {k : Nat} {v w : BitVec 64} (first : s.OneWay r k v) (second : s.OneWay r k w) : v = w := by
  obtain ⟨tx, rx, sent, recv, rfl⟩ := first
  obtain ⟨tx', rx', sent', recv', rfl⟩ := second
  obtain rfl : tx = tx' := (sent' tx).mp ((sent tx).mpr rfl)
  obtain rfl : rx = rx' := (recv' rx).mp ((recv rx).mpr rfl)
  rfl

theorem file_filename (finished : (s.host r).finished = true) :
    s.file r.filename = (c.program r).results (s.host r).loop.st := by
  have apart : Role.master.filename ≠ Role.slave.filename := by decide
  unfold Sys.file
  cases r with
  | master =>
    rw [List.findSome?_cons, if_pos ⟨rfl, finished⟩]
    cases (c.program .master).results (s.host .master).loop.st <;> simp [apart.symm]
  | slave =>
    rw [List.findSome?_cons, if_neg fun both => apart both.1]
    cases stored : (c.program .slave).results (s.host .slave).loop.st <;> simp [finished, stored]

theorem left_of_finished (finished : (s.host r).finished = true) : (s.host r).loop.status = .left := by
  rw [Host.finished, Bool.and_eq_true, decide_eq_true_eq] at finished
  exact finished.1

/-- Each program writes the delays of the packets it received. -/
theorem line_filename {positive : Prop} {a : Exchange Timespec} (started : c.Started n)
    (refines : Refines c n positive s a) (tidy : Exchange.Tidy n c.bound a) (entered : positive)
    (finished : (s.host r).finished = true) {k : Nat} (small : k < n) :
    ∃ v, s.OneWay r k v ∧ s.line r.filename k = some (fprintfLu v) := by
  obtain ⟨file, stored, -, lines⟩ := file_of_left started refines tidy entered (left_of_finished finished)
  obtain ⟨tx, rx, sent, recv, line⟩ := lines k small
  refine ⟨_, ⟨tx, rx, sent, recv, rfl⟩, ?_⟩
  unfold Sys.line
  rw [file_filename finished, stored]
  exact line

theorem line_of_one_datagram {positive : Prop} {a : Exchange Timespec} (started : c.Started n)
    (refines : Refines c n positive s a) (tidy : Exchange.Tidy n c.bound a) (one : s.received r ≤ 1)
    (finished : (s.host r).finished = true) : s.line r.filename 0 = none := by
  rw [received_of_refines refines] at one
  have count := Exchange.count_of_receptions tidy one
  obtain ⟨file, stored, lines⟩ := file_of_refines started refines (r := r) (by omega)
  unfold Sys.line
  rw [file_filename finished, stored, Option.bind_some, lines, count]
  rfl

/-- The files of both programs hold what their names say. -/
def Sys.NamedRight (s : Sys c) (n : Nat) : Prop :=
  ∀ k < n, (∃ v, s.OneWay .slave k v ∧ s.line "master_to_slave_latency.txt" k = some (fprintfLu v)) ∧
    ∃ v, s.OneWay .master k v ∧ s.line "slave_to_master_latency.txt" k = some (fprintfLu v)

/-- The two files are exchanged, which shows unless the packets of each number took the same time in
both directions. -/
theorem file_directions_iff (one : 1 ≤ n) (fits : n ≤ Master.entries)
    (numbers : ∀ r, (c.measureNumber r).toInt = n) (var : Role → Int) (ls : List Label)
    (run : Run Sys.step Ordered (Sys.start c var) ls s) (finished : ∀ r, (s.host r).finished = true) :
    s.NamedRight n ↔
      (∀ r, 0 < var r) ∧ ∀ k < n, ∃ v, s.OneWay .slave k v ∧ s.OneWay .master k v := by
  have started := started_of_equal one fits numbers
  obtain ⟨a, run', refines⟩ := refines_ordered started run
  have tidy := Exchange.tidy_run run'
  constructor
  · intro right
    have entered : ∀ r, 0 < var r := by
      intro r
      by_contra idle
      have any : Run Sys.step Any (Sys.start c var) ls s := run_mono (fun _ _ _ => trivial) run
      have empty := line_of_one_datagram started refines tidy (received_le_one (Int.not_lt.mp idle) any) (finished r)
      obtain ⟨⟨v, -, m2s⟩, w, -, s2m⟩ := right 0 one
      cases r with
      | master => exact Option.some_ne_none _ (m2s.symm.trans empty)
      | slave => exact Option.some_ne_none _ (s2m.symm.trans empty)
    refine ⟨entered, fun k small => ?_⟩
    obtain ⟨⟨v, toSlave, line⟩, -⟩ := right k small
    obtain ⟨w, toMaster, written⟩ := line_filename started refines tidy entered (finished .master) small
    obtain rfl : v = w := fprintfLu_inj (Option.some.inj (line.symm.trans written))
    exact ⟨v, toSlave, toMaster⟩
  · rintro ⟨entered, same⟩ k small
    obtain ⟨v, toSlave, toMaster⟩ := same k small
    obtain ⟨w, toMaster', m2s⟩ := line_filename started refines tidy entered (finished .master) small
    obtain ⟨u, toSlave', s2m⟩ := line_filename started refines tidy entered (finished .slave) small
    rw [oneWay_unique toMaster' toMaster] at m2s
    rw [oneWay_unique toSlave' toSlave] at s2m
    exact ⟨⟨v, toSlave, m2s⟩, v, toMaster, s2m⟩

theorem run_measurement_files :
    ∃ s, Run Sys.step Ordered (Sys.start .single fun _ => 1) (measurement ⟨7, 0⟩ 0) s ∧
      ([s.line "master_to_slave_latency.txt" 0, s.line "slave_to_master_latency.txt" 0],
        [(s.host .master).finished, (s.host .slave).finished,
          decide (⟨.master, true, PktType.delayReq.code, 0, ⟨0, 5⟩⟩ ∈ s.trace),
          decide (⟨.slave, false, PktType.delayReq.code, 0, ⟨0, 9⟩⟩ ∈ s.trace)]) =
      ([some ['1', '3', '\n'], some ['4', '\n']], [true, true, true, true]) :=
  run_of_exec Sys.step Ordered (Sys.start .single fun _ => 1) (measurement ⟨7, 0⟩ 0) _ _ (by decide +kernel)

/-- DELAY_REQ 0 took 4 ns, and line 0 of master_to_slave_latency.txt is the 13 of DELAY_RESP 0. -/
theorem file_directions_exchanged :
    ∃ s, Run Sys.step Ordered (Sys.start .single fun _ => 1) (measurement ⟨7, 0⟩ 0) s ∧
      (∀ r, (s.host r).finished = true) ∧ s.line "master_to_slave_latency.txt" 0 = some ['1', '3', '\n'] ∧
      s.line "slave_to_master_latency.txt" 0 = some ['4', '\n'] ∧ (∀ v, s.OneWay .slave 0 v → v = 4) ∧
      ¬ s.NamedRight 1 := by
  obtain ⟨s, run, seen⟩ := run_measurement_files
  simp only [Prod.mk.injEq, List.cons.injEq, and_true] at seen
  obtain ⟨⟨m2s, s2m⟩, master, slave, sent, recv⟩ := seen
  have delay (v : BitVec 64) (way : s.OneWay .slave 0 v) : v = 4 := by
    obtain ⟨tx, rx, only, only', rfl⟩ := way
    obtain rfl := (only ⟨0, 5⟩).mp (of_decide_eq_true sent)
    obtain rfl := (only' ⟨0, 9⟩).mp (of_decide_eq_true recv)
    decide
  refine ⟨s, run, fun r => (by cases r <;> assumption), m2s, s2m, delay, fun right => ?_⟩
  obtain ⟨⟨v, way, line⟩, -⟩ := right 0 Nat.one_pos
  rw [delay v way, m2s] at line
  exact absurd line (by decide)

/-- Both packets with the number 0 take 4 ns. -/
def evenMeasurement : List Label :=
  iteration .master ⟨7, 0⟩ ⟨0, 5⟩ ++ [reception .slave ⟨0, 9⟩, reception .slave ⟨0, 91⟩] ++
    iteration .slave ⟨7, 0⟩ ⟨0, 20⟩ ++ [.resume, reception .master ⟨0, 24⟩, reception .master ⟨0, 92⟩]

theorem run_evenMeasurement : ∃ s, Run Sys.step Ordered (Sys.start .single fun _ => 1) evenMeasurement s ∧
    ((s.host .master).finished, (s.host .slave).finished, s.trace) = (true, true,
      [⟨.master, true, 0, 0, ⟨0, 5⟩⟩, ⟨.master, true, 1, 0, ⟨0, 90⟩⟩, ⟨.slave, false, 0, 0, ⟨0, 9⟩⟩,
        ⟨.slave, false, 1, 0, ⟨0, 91⟩⟩, ⟨.slave, true, 2, 0, ⟨0, 20⟩⟩, ⟨.slave, true, 3, 0, ⟨0, 90⟩⟩,
        ⟨.master, false, 2, 0, ⟨0, 24⟩⟩, ⟨.master, false, 3, 0, ⟨0, 92⟩⟩]) :=
  run_of_exec Sys.step Ordered (Sys.start .single fun _ => 1) evenMeasurement _ _ (by decide +kernel)

theorem file_directions_even :
    ∃ s, Run Sys.step Ordered (Sys.start .single fun _ => 1) evenMeasurement s ∧ s.NamedRight 1 := by
  obtain ⟨s, run, seen⟩ := run_evenMeasurement
  obtain ⟨master, rest⟩ := Prod.mk.inj seen
  obtain ⟨slave, trace⟩ := Prod.mk.inj rest
  refine ⟨s, run, (file_directions_iff (n := 1) (by decide) (by decide) (fun _ => rfl) (fun _ => 1) _ run
    fun r => by cases r <;> assumption).mpr ⟨fun _ => Int.one_pos, fun k small => ⟨4, ?_, ?_⟩⟩⟩
  all_goals obtain rfl : k = 0 := Nat.lt_one_iff.mp small
  · refine ⟨⟨0, 5⟩, ⟨0, 9⟩, fun u => ?_, fun u => ?_, by decide⟩
    · show (⟨.master, true, 0, 0, u⟩ : Obs) ∈ s.trace ↔ _
      simp [trace]
    · show (⟨.slave, false, 0, 0, u⟩ : Obs) ∈ s.trace ↔ _
      simp [trace]
  · refine ⟨⟨0, 20⟩, ⟨0, 24⟩, fun u => ?_, fun u => ?_, by decide⟩
    · show (⟨.slave, true, 2, 0, u⟩ : Obs) ∈ s.trace ↔ _
      simp [trace]
    · show (⟨.master, false, 2, 0, u⟩ : Obs) ∈ s.trace ↔ _
      simp [trace]

end Mdelay
