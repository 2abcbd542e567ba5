import Mdelay.Proofs.Termination
import Mdelay.Protocol.Losses

/-!
# Runs that lose or duplicate datagrams

A lost follow-up leaves its receiver waiting forever, and a master whose slave waits as well. Lost
events and copies block nothing: such a run can always be brought to its end.
-/

namespace Mdelay
open ByteOrder TwoStep Transition

variable {c : Config} {n : Nat} {positive : Prop} {s t u : Sys c} {a : Exchange Timespec} {r : Role} {l : Label}

/-! ### Schedules -/

def Unduplicated (_ : Sys c) : Label → Prop
  | .dup _ => False
  | _ => True

def Datagram.FollowUpFor (d : Datagram) (c : Config) (r : Role) : Prop :=
  d.dst = c.address r ∧ (decode .big d.bytes).type = (c.program r).followUp.code

/-- No follow-up is lost. -/
def Followed (s : Sys c) : Label → Prop
  | .drop i => ∀ d ∈ s.net[i]?, ∀ r, ¬ d.FollowUpFor c r
  | _ => True

instance (s : Sys c) : (l : Label) → Decidable (Unduplicated s l)
  | .dup _ => .isFalse id
  | .event .. | .followUp .. | .poll _ | .loopback _ | .resume | .deliver .. | .drop _ => .isTrue trivial

instance (d : Datagram) (c : Config) (r : Role) : Decidable (d.FollowUpFor c r) := inferInstanceAs (Decidable (_ ∧ _))

instance (P : Role → Prop) [DecidablePred P] : Decidable (∀ r, P r) :=
  decidable_of_iff (P .master ∧ P .slave) ⟨fun both r => by cases r <;> [exact both.1; exact both.2],
    fun all => ⟨all .master, all .slave⟩⟩

instance (s : Sys c) : (l : Label) → Decidable (Followed s l)
  | .drop i => inferInstanceAs (Decidable (∀ d ∈ s.net[i]?, ∀ r, ¬ d.FollowUpFor c r))
  | .event .. | .followUp .. | .poll _ | .loopback _ | .resume | .deliver .. | .dup _ => .isTrue trivial

theorem unduplicated_action {k : Action Timespec} (action : l.action = some k) (unduplicated : Unduplicated s l) :
    Exchange.Unduplicated a k := by
  cases l with
  | event | followUp | deliver | drop =>
    obtain rfl := Option.some.inj action
    trivial
  | poll | loopback | resume => cases action
  | dup => exact unduplicated.elim

theorem followed_action (refines : Refines c n positive s a) {k : Action Timespec} (action : l.action = some k)
    (followed : Followed s l) : Exchange.Followed a k := by
  intro p
  cases l with
  | event | followUp | deliver | dup =>
    obtain rfl := Option.some.inj action
    rfl
  | poll | loopback | resume => cases action
  | drop i =>
    obtain rfl := Option.some.inj action
    cases found : a.net[i]? with
    | none => simp [Exchange.lost, Exchange.numbered, found, onWay]
    | some m =>
      obtain ⟨d, found', carries⟩ := Related.getElem?_right refines.net found
      rw [Exchange.lost, Exchange.numbered_of_found found, if_neg]
      rintro ⟨rfl, stamped⟩
      have type := (decode_carried carries).1
      rw [stamped, ← followUp_code c] at type
      exact followed d found' (playedBy m.dest) ⟨carries.dst, type⟩

theorem unduplicated_of_lossless (lossless : Lossless s l) : Unduplicated s l := by
  cases l with
  | dup => exact lossless.elim
  | event | followUp | poll | loopback | resume | deliver | drop => trivial

theorem followed_of_lossless (lossless : Lossless s l) : Followed s l := by
  cases l with
  | drop => exact lossless.elim
  | event | followUp | poll | loopback | resume | deliver | dup => trivial

theorem refines_unduplicated (started : c.Started n) {var : Role → Int} {ls : List Label}
    (run : Run Sys.step Unduplicated (Sys.start c var) ls s) :
    ∃ a, Run (Exchange.step c.bound) Exchange.Unduplicated (Exchange.start n) (ls.filterMap Label.action) a ∧
      Refines c n (∀ r, 0 < var r) s a :=
  refines_run started (fun _ _ _ _ _ _ action unduplicated _ => unduplicated_action action unduplicated) run

theorem refines_followed (started : c.Started n) {var : Role → Int} {ls : List Label}
    (run : Run Sys.step Followed (Sys.start c var) ls s) :
    ∃ a, Run (Exchange.step c.bound) Exchange.Followed (Exchange.start n) (ls.filterMap Label.action) a ∧
      Refines c n (∀ r, 0 < var r) s a :=
  refines_run started (fun _ _ _ _ _ refines action followed _ => followed_action refines action followed) run

/-! ### A lost follow-up -/

theorem running_of_few (refines : Refines c n positive s a) (entered : positive)
    (few : (a.recorder r.side).count < (c.program r).bound.toNat) : (s.host r).loop.status = .running := by
  cases (refines.host r).loops with
  | running status => exact status
  | left status enough =>
    have counted := enough.resolve_right fun negative => negative.1 entered
    omega

theorem running_of_fewer (started : c.Started n) (refines : Refines c n positive s a) (entered : positive)
    (few : (a.recorder r.side).count < n) : (s.host r).loop.status = .running := by
  have bound := le_bound started r.side
  rw [Config.bound, playedBy_side] at bound
  exact running_of_few refines entered (by omega)

/-- What holds once the follow-up `k` for `p` is lost. -/
def Missed (c : Config) (n : Nat) (positive : Prop) (p : Side) (k : Nat) (s : Sys c) : Prop :=
  ∃ a, Refines c n positive s a ∧ Exchange.Within a ∧ Exchange.Missing a p k

theorem missed_step (started : c.Started n) {p : Side} {k : Nat} (missed : Missed c n positive p k s)
    (unduplicated : Unduplicated s l) (taken : s.step l = some t) : Missed c n positive p k t := by
  obtain ⟨a, refines, within, missing⟩ := missed
  have answer := refines_step started refines taken
  cases action : l.action with
  | none =>
    rw [action] at answer
    exact ⟨a, answer, within, missing⟩
  | some k =>
    rw [action] at answer
    obtain ⟨b, taken', refines'⟩ := answer
    have stepped := Exchange.stepped_iff.mp taken'
    have unduplicated := unduplicated_action (a := a) action unduplicated
    exact ⟨b, refines', Exchange.within_step within unduplicated stepped,
      Exchange.missing_step missing unduplicated stepped⟩

theorem missed_of_drop (refines : Refines c n positive s a) (within : Exchange.Within a)
    {i : Nat} {d : Datagram} (found : s.net[i]? = some d) (lost : d.FollowUpFor c r)
    (taken : s.step (.drop i) = some t) : ∃ k, Missed c n positive r.side k t := by
  obtain ⟨m, found', carries⟩ := Related.getElem? refines.net found
  obtain ⟨b, taken', refines'⟩ := refines_drop refines taken
  have stepped := Exchange.stepped_iff.mp taken'
  obtain rfl : r = playedBy m.dest := address_inj (lost.1.symm.trans carries.dst)
  have stamped : m.stamp.isSome = true :=
    code_inj ((decode_carried carries).1.symm.trans (lost.2.trans (followUp_code c (playedBy m.dest))))
  rw [side_playedBy]
  exact ⟨m.seq, b, refines', Exchange.within_step within (a := .drop i) trivial stepped,
    Exchange.missing_of_drop within found' stamped stepped⟩

/-- Nothing makes up for a lost follow-up: its receiver stays in its loop, and so does the master when
it is the slave that waits. -/
theorem lost_followUp_blocks (started : c.Started n) (var : Role → Int) (entered : ∀ r, 0 < var r)
    (before after : List Label) (i : Nat) (d : Datagram) (r : Role)
    (first : Run Sys.step Unduplicated (Sys.start c var) before u) (found : u.net[i]? = some d)
    (lost : d.FollowUpFor c r) (rest : Run Sys.step Unduplicated u (.drop i :: after) s) :
    (s.host r).loop.status = .running ∧ (r = .slave → (s.host .master).loop.status = .running) := by
  obtain ⟨a, run, refines⟩ := refines_unduplicated started first
  obtain ⟨-, v, taken, later⟩ := rest
  obtain ⟨k, missed⟩ := missed_of_drop refines (Exchange.within_run run).2 found lost taken
  obtain ⟨b, refines', within, missing⟩ := run_invariant
    (fun _ _ _ missed unduplicated taken => missed_step started missed unduplicated taken) missed later
  obtain ⟨few, fewer⟩ := Exchange.count_of_missing refines'.traced.orderly within missing
  refine ⟨running_of_fewer started refines' entered few, fun slave => ?_⟩
  subst slave
  exact running_of_fewer (r := .master) started refines' entered (fewer rfl)

theorem run_to_followUp : ∃ u : Sys .single,
    Run Sys.step Unduplicated (Sys.start .single fun _ => 1) (iteration .master ⟨7, 0⟩ ⟨0, 5⟩) u ∧
      (decide (∃ d ∈ u.net[1]?, d.FollowUpFor Config.single .slave),
        (exec Sys.step Unduplicated u [.drop 1, reception .slave ⟨0, 9⟩]).isSome) = (true, true) :=
  run_of_exec Sys.step Unduplicated (Sys.start .single fun _ => 1) (iteration .master ⟨7, 0⟩ ⟨0, 5⟩) _ _
    (by decide +kernel)

/-- The one DELAY_REQ_FOLLOW_UP is lost, the DELAY_REQ arrives. -/
theorem lost_followUp_blocks_single : ∃ u s,
    Run Sys.step Unduplicated (Sys.start .single fun _ => 1) (iteration .master ⟨7, 0⟩ ⟨0, 5⟩) u ∧
      Run Sys.step Unduplicated u [.drop 1, reception .slave ⟨0, 9⟩] s ∧
      (s.host .master).loop.status = .running := by
  obtain ⟨u, first, seen⟩ := run_to_followUp
  obtain ⟨kind, goes⟩ := Prod.mk.inj seen
  obtain ⟨d, found, lost⟩ := of_decide_eq_true kind
  obtain ⟨s, executed⟩ := Option.isSome_iff_exists.mp goes
  have rest := exec_eq_some.mp executed
  have blocked := lost_followUp_blocks started_single _ (fun _ => Int.one_pos) _ _ 1 d .slave first found lost rest
  exact ⟨u, s, first, rest, blocked.2 rfl⟩

/-! ### A run without copies -/

/-- The numbers of the packets of a type that a host has sent or received, oldest first. -/
def Sys.seqs (s : Sys c) (host : Role) (sent : Bool) (type : PktType) : List (BitVec 32) :=
  (s.trace.filter fun o => o.host = host ∧ o.sent = sent ∧ o.type = type.code).map Obs.seq

theorem seqs_sighted (refines : Refines c n positive s a) (r : Role) (sent followUp : Bool) {type : PktType}
    (code : type.code = (if sent then r else r.peer).code followUp) :
    s.seqs r sent type = (TwoStep.seqs a.trace r.side sent followUp).map (BitVec.ofNat 32) := by
  rw [Sys.seqs, refines.trace, List.filter_map, List.map_map, TwoStep.seqs, List.map_map]
  have same : (fun o => decide (o.host = r ∧ o.sent = sent ∧ o.type = type.code)) ∘ sighted =
      fun o : Sighting Timespec => decide (o.side = r.side ∧ o.sent = sent ∧ o.followUp = followUp) := by
    funext o
    obtain ⟨side, sent', followUp', seq, time⟩ := o
    simp only [Function.comp_apply, sighted, decide_eq_decide]
    constructor
    · rintro ⟨rfl, rfl, kind⟩
      rw [code] at kind
      exact ⟨(side_playedBy side).symm, rfl, code_inj kind⟩
    · rintro ⟨rfl, rfl, rfl⟩
      simp [code]
  rw [same]
  rfl

theorem seqs_taken (refines : Refines c n positive s a) (r : Role) :
    s.seqs r false (c.program r).followUp =
      (TwoStep.seqs a.trace r.side false true).map (BitVec.ofNat 32) :=
  seqs_sighted refines r false true (followUp_code c r)

/-- A program that has left its loop was to measure `n` packets and has received every follow-up once;
so has the slave, if it is the master that has left. -/
theorem left_of_unduplicated (started : c.Started n) (var : Role → Int) (entered : ∀ r, 0 < var r)
    (ls : List Label) (run : Run Sys.step Unduplicated (Sys.start c var) ls s) (r : Role)
    (left : (s.host r).loop.status = .left) :
    (c.measureNumber r).toInt = n ∧
      ∀ r', r' = r ∨ r' = .slave →
        (s.seqs r' false (c.program r').followUp).Perm ((List.range n).map (BitVec.ofNat 32)) := by
  obtain ⟨a, run', refines⟩ := refines_unduplicated started run
  obtain ⟨traced, within⟩ := Exchange.within_run run'
  obtain ⟨requests, responses⟩ := Exchange.counts_within traced.orderly within
  have enough := enough_of_left started refines entered left
  have bounded : (c.program r).bound.toNat ≤ (a.recorder r.side).count := by
    by_contra few
    rw [running_of_few refines entered (by omega)] at left
    cases left
  refine ⟨?_, fun r' reached => ?_⟩
  · cases r with
    | master => exact started.master
    | slave =>
      have number := started.slave
      have bound := bound_slave started
      change (c.program .slave).bound.toNat ≤ (a.recorder .responder).count at bounded
      omega
  · rw [seqs_taken refines]
    refine (Exchange.received_perm_within traced within ?_).map _
    rcases reached with same | same
    · rw [same]
      exact enough
    · subst same
      cases r with
      | master => exact Nat.le_trans enough responses
      | slave => exact enough

theorem left_of_unduplicated_single : ∃ s,
    Run Sys.step Unduplicated (Sys.start .single fun _ => 1) (measurement ⟨7, 0⟩ 0) s ∧
      (s.seqs .slave false .delayReqFollowUp).Perm [0#32] := by
  obtain ⟨s, run, left⟩ := run_measurement
  have unduplicated : Run Sys.step Unduplicated (Sys.start .single fun _ => 1) _ s :=
    run_mono (fun _ _ ordered => unduplicated_of_lossless (lossless_of_ordered ordered)) run
  exact ⟨s, unduplicated, (left_of_unduplicated started_single _ (fun _ => Int.one_pos) _ unduplicated .master
    (Prod.mk.inj left).1).2 .slave (Or.inr rfl)⟩

/-! ### The length of a run -/

def Label.copies : Label → Bool
  | .dup _ => true
  | _ => false

/-- The step of the exchange that a step of the system is, if it is one. -/
def Answers (c : Config) (a : Exchange Timespec) (l : Label) (b : Exchange Timespec) : Prop :=
  match l.action with
  | none => b = a
  | some k => Exchange.Stepped c.bound a k b

theorem refines_answer (started : c.Started n) (refines : Refines c n positive s a) (taken : s.step l = some t) :
    ∃ b, Answers c a l b ∧ Refines c n positive t b := by
  have answer := refines_step started refines taken
  unfold Answers
  cases action : l.action with
  | none =>
    rw [action] at answer
    exact ⟨a, rfl, answer⟩
  | some k =>
    rw [action] at answer
    obtain ⟨b, taken', refines'⟩ := answer
    exact ⟨b, Exchange.stepped_iff.mp taken', refines'⟩

theorem workload_answer (refines : Refines c n positive s a) {b : Exchange Timespec} (lossless : Lossless s l)
    (answers : Answers c a l b) : b.workload + l.action.elim 0 Action.cost = a.workload := by
  unfold Answers at answers
  cases action : l.action with
  | none =>
    rw [action] at answers
    rw [answers]
    rfl
  | some k =>
    rw [action] at answers
    exact Exchange.workload_step refines.traced.orderly (lossless_action action lossless) answers

theorem effort_lossless (refines : Refines c n positive s a) {b : Exchange Timespec} (taken : s.step l = some t)
    (answers : Answers c a l b) (lossless : Lossless s l) :
    b.workload + t.backlog + (if s.busy l then 1 else 0) ≤ a.workload + s.backlog := by
  have backlog := backlog_step lossless taken
  have work := workload_answer refines lossless answers
  omega

/-- Only a copy adds to the steps that are left. -/
theorem effort_step (refines : Refines c n positive s a) {b : Exchange Timespec} (taken : s.step l = some t)
    (answers : Answers c a l b) :
    b.workload + t.backlog + (if s.busy l then 1 else 0) ≤
      a.workload + s.backlog + if l.copies then dearest + 1 else 0 := by
  cases l with
  | drop i =>
    obtain ⟨inside, rfl⟩ := step_drop.mp taken
    have hosts : ({ s with net := s.net.eraseIdx i } : Sys c).backlog = s.backlog := rfl
    cases answers with
    | drop inside =>
      have left := Exchange.workload_drop a (List.getElem?_eq_getElem inside)
      have some := Exchange.price_pos a.net[i]
      simp only [Sys.busy, Label.copies, if_true, Bool.false_eq_true, if_false, hosts]
      omega
  | dup i =>
    obtain ⟨d, found, rfl⟩ := step_dup.mp taken
    have hosts : ({ s with net := s.net ++ [d] } : Sys c).backlog = s.backlog := rfl
    cases answers with
    | @dup i m found =>
      have left := Exchange.workload_dup a m
      have dear := Exchange.price_le_dearest m
      simp only [Sys.busy, Label.copies, if_true, hosts]
      omega
  | event | followUp | poll | loopback | resume | deliver =>
    exact effort_lossless refines taken answers trivial

/-- Whatever the network does, only copies make a run longer, each by a fixed number of steps. -/
theorem busySteps_of_copies (started : c.Started n) (var : Role → Int) (ls : List Label)
    (run : Run Sys.step Any (Sys.start c var) ls s) :
    busySteps Sys.step Sys.busy (Sys.start c var) ls ≤ 26 * n + 15 * ls.countP Label.copies := by
  have whole := busySteps_le_raised Sys.busy (Refines c n (∀ r, 0 < var r)) (fun s a => a.workload + s.backlog)
    Label.copies (dearest + 1) ?_ (refines_start started var) run
  · rwa [Exchange.workload_start] at whole
  · intro s a l t refines _ taken
    obtain ⟨b, answers, refines'⟩ := refines_answer started refines taken
    exact ⟨b, refines', effort_step refines taken answers⟩

/-- The event of one iteration is lost, its follow-up copied. -/
def disturbed : List Label := iteration .master ⟨7, 0⟩ ⟨0, 5⟩ ++ [.drop 0, .dup 0]

theorem run_disturbed : ∃ s, Run Sys.step Followed (Sys.start .single fun _ => 1) disturbed s ∧ s.net.length = 2 :=
  run_of_exec Sys.step Followed (Sys.start .single fun _ => 1) disturbed _ _ (by decide +kernel)

theorem busySteps_of_disturbed : ∃ s, Run Sys.step Any (Sys.start .single fun _ => 1) disturbed s ∧
    busySteps Sys.step Sys.busy (Sys.start .single fun _ => 1) disturbed ≤ 26 * 1 + 15 * 1 := by
  obtain ⟨s, run, -⟩ := run_disturbed
  have any : Run Sys.step Any (Sys.start .single fun _ => 1) disturbed s := run_mono (fun _ _ _ => trivial) run
  exact ⟨s, any, busySteps_of_copies started_single _ _ any⟩

/-! ### No dead end -/

theorem covered_answer (refines : Refines c n positive s a) {b : Exchange Timespec} (covered : Exchange.Covered a)
    (followed : Followed s l) (answers : Answers c a l b) : Exchange.Covered b := by
  unfold Answers at answers
  cases action : l.action with
  | none =>
    rw [action] at answers
    rwa [answers]
  | some k =>
    rw [action] at answers
    exact Exchange.covered_step covered (followed_action refines action followed) answers

theorem totals_of_finished (started : c.Started n) (numbers : ∀ r, (c.measureNumber r).toInt = n)
    (refines : Refines c n positive s a) (entered : positive) (finished : s.Finished) (r : Role) :
    ((c.program r).total (s.host r).loop.st).toNat = n := by
  have enough := refines.traced.orderly.enough r.side
  rw [bound_of_equal started numbers] at enough
  rw [toNat_total_of_refines refines r]
  exact enough.antisymm (enough_of_left started refines entered (finished.2 r))

/-- A run that loses no follow-up is never stuck: without another loss or copy it can be brought to the
state in which both programs have counted `n`. -/
theorem followed_run_completes (one : 1 ≤ n) (fits : n ≤ Master.entries)
    (numbers : ∀ r, (c.measureNumber r).toInt = n) (var : Role → Int) (entered : ∀ r, 0 < var r) (ls : List Label)
    (run : Run Sys.step Followed (Sys.start c var) ls s) :
    ∃ more t, Run Sys.step Lossless s more t ∧ t.Finished ∧
      ∀ r, ((c.program r).total (t.host r).loop.st).toNat = n := by
  have started := started_of_equal one fits numbers
  obtain ⟨a, run', refines⟩ := refines_followed started run
  have covered := (Exchange.covered_run run').2
  have moves (s : Sys c) (a : Exchange Timespec)
      (inv : Refines c n (∀ r, 0 < var r) s a ∧ Exchange.Covered a) (short : ¬ s.Finished) :
      ∃ l t b, Lossless s l ∧ s.step l = some t ∧ (Refines c n (∀ r, 0 < var r) t b ∧ Exchange.Covered b) ∧
        b.workload + t.backlog < a.workload + s.backlog := by
    obtain ⟨refines, covered⟩ := inv
    have supplied := Exchange.supplied_of_covered refines.traced covered
    obtain ⟨l, t, lossless, busy, taken⟩ :=
      (progress_of_supplied started numbers entered refines supplied).resolve_right short
    obtain ⟨b, answers, refines'⟩ := refines_answer started refines taken
    have effort := effort_step refines taken answers
    have fresh : l.copies = false := by
      cases l with
      | dup => exact lossless.elim
      | event | followUp | poll | loopback | resume | deliver | drop => rfl
    refine ⟨l, t, b, lossless, taken,
      ⟨refines', covered_answer refines covered (followed_of_lossless lossless) answers⟩, ?_⟩
    simp only [busy, fresh, if_true, Bool.false_eq_true, if_false] at effort
    omega
  obtain ⟨more, t, b, rest, ⟨refines', -⟩, finished⟩ :=
    exists_run_of_progress (fun s a => Refines c n (∀ r, 0 < var r) s a ∧ Exchange.Covered a)
      (fun s a => a.workload + s.backlog) Sys.Finished moves ⟨refines, covered⟩
  exact ⟨more, t, rest, finished, totals_of_finished started numbers refines' entered finished⟩

theorem followed_run_completes_disturbed : ∃ s more t,
    Run Sys.step Followed (Sys.start .single fun _ => 1) disturbed s ∧ Run Sys.step Lossless s more t ∧
      t.Finished := by
  obtain ⟨s, run, -⟩ := run_disturbed
  obtain ⟨more, t, rest, finished, -⟩ := followed_run_completes (n := 1) (by decide) (by decide) (fun _ => rfl) _
    (fun _ => Int.one_pos) _ run
  exact ⟨s, more, t, run, rest, finished⟩

/-! ### What the hosts send -/

/-- What a host has to send: the master, `n` requests; the slave, an answer to each DELAY_REQ_FOLLOW_UP
that it has received. -/
def Sys.tasks (n : Nat) (s : Sys c) : Role → List (BitVec 32)
  | .master => (List.range n).map (BitVec.ofNat 32)
  | .slave => s.seqs .slave false .delayReqFollowUp

theorem tasks_sighted (refines : Refines c n positive s a) (r : Role) :
    s.tasks n r = (Exchange.tasks n a.trace r.side).map (BitVec.ofNat 32) := by
  cases r with
  | master => rfl
  | slave => exact seqs_taken refines .slave

theorem seqs_sent (refines : Refines c n positive s a) (r : Role) :
    s.seqs r true (c.program r.peer).followUp = (TwoStep.seqs a.trace r.side true true).map (BitVec.ofNat 32) ∧
      s.seqs r true (c.program r.peer).event = (TwoStep.seqs a.trace r.side true false).map (BitVec.ofNat 32) :=
  ⟨seqs_sighted refines r true true (by simp [followUp_code]), seqs_sighted refines r true false (by simp [event_code])⟩

/-- Over any network a host sends the pairs of its tasks in their order, a follow-up before the next
event; the slave is at most one behind, and counts what it has received. -/
theorem sent_in_order (started : c.Started n) (var : Role → Int) (ls : List Label)
    (run : Run Sys.step Any (Sys.start c var) ls s) (r : Role) :
    (∃ rest, s.tasks n r = s.seqs r true (c.program r.peer).followUp ++ rest ∧
      (s.seqs r true (c.program r.peer).event = s.seqs r true (c.program r.peer).followUp ∨
        ∃ k later, rest = k :: later ∧
          s.seqs r true (c.program r.peer).event = s.seqs r true (c.program r.peer).followUp ++ [k]) ∧
      (r = .slave → rest.length ≤ 1)) ∧
    (s.seqs r false (c.program r).followUp).length = ((c.program r).total (s.host r).loop.st).toNat ∧
    ((c.program r).total (s.host r).loop.st).toNat ≤ (c.program r).bound.toNat := by
  obtain ⟨a, refines⟩ := refines_any started run
  have orderly := refines.traced.orderly
  have followUps := orderly.followUps r.side
  obtain ⟨sent, event⟩ := seqs_sent refines r
  refine ⟨⟨(a.todo r.side).map (BitVec.ofNat 32), ?_, ?_, fun slave => ?_⟩, ?_, ?_⟩
  · rw [tasks_sighted refines, sent, ← followUps, List.map_append]
  · rw [sent, event]
    rcases Exchange.events_of_orderly orderly r.side with same | ⟨k, rest, todo, more⟩
    · exact Or.inl (by rw [same])
    · refine Or.inr ⟨BitVec.ofNat 32 k, rest.map (BitVec.ofNat 32), ?_, ?_⟩
      · rw [todo, List.map_cons]
      · rw [more, List.map_append, List.map_singleton]
  · subst slave
    rw [List.length_map]
    exact refines.traced.answered.single
  · rw [seqs_taken refines, List.length_map, toNat_total_of_refines refines, orderly.count]
  · have enough := orderly.enough r.side
    rw [Config.bound, playedBy_side] at enough
    rwa [toNat_total_of_refines refines]

theorem sent_in_order_disturbed : ∃ s, Run Sys.step Any (Sys.start .single fun _ => 1) disturbed s ∧
    ((Config.single.program .slave).total (s.host .slave).loop.st).toNat ≤ 1 := by
  obtain ⟨s, run, -⟩ := run_disturbed
  have any : Run Sys.step Any (Sys.start .single fun _ => 1) disturbed s := run_mono (fun _ _ _ => trivial) run
  exact ⟨s, any, (sent_in_order started_single _ _ any .slave).2.2⟩

end Mdelay
