import Mdelay.Model.Beyond
import Mdelay.Proofs.Rx

/-!
# The reference receiver past its arrays

The last packet that the arrays have an entry for is noted behind two of them. Where that does not stop the
receiver, it goes on to the end of its loop and writes a file from the entries that it has.
-/

namespace Mdelay.Rx
open ByteOrder Overrun Transition

variable {cap : Nat} {e : Endian} {cfg : Configuration} {past : Timespec × Timespec}

/-! ### One packet -/

def Memory.latencies (s : Memory cap) : Latencies cap :=
  ⟨s.totalReceived, s.nicKernel.entries, s.nicUser.entries, s.kernelUser.entries⟩

/-- The writes of `print_time`. -/
def Memory.note (s : Memory cap) (t : Times) : Option (Memory cap) :=
  (s.nicKernel.put s.totalReceived t.nicKernel).bind fun nicKernel =>
    (s.nicUser.put (s.totalReceived + 1) t.nicUser).bind fun nicUser =>
      (s.kernelUser.put (s.totalReceived + 1) t.kernelUser).map fun kernelUser =>
        ⟨s.totalReceived + 1, nicKernel, nicUser, kernelUser,
          s.strayed || !decide (Inside cap s.totalReceived.toNat ∧ Inside cap (s.totalReceived + 1).toNat)⟩

/-- The times that a call prints, `past` where the timestamps end too early. -/
def Call.timesOn (r : Call) (past : Timespec × Timespec) : Option Times :=
  r.stamps.map fun ts => ⟨(ts[2]?).getD past.2, (ts[0]?).getD past.1, r.timeUser⟩

theorem printTimeOn_eq (r : Call) (past : Timespec × Timespec) (s : Memory cap) :
    printTimeOn r.stamps past r.timeUser s =
      match r.timesOn past with
      | none => some s
      | some t => s.note t := by
  unfold printTimeOn Call.timesOn
  simp only [difference]
  cases r.stamps <;> rfl

theorem entries_of_put {numbers numbers' : Numbers cap} {i latency : BitVec 64}
    (wrote : numbers.put i latency = some numbers') (k : Fin cap) :
    numbers'.entries k = if k.val = i.toNat then latency else numbers.entries k := by
  obtain ⟨⟨entries, around⟩, written, rfl⟩ := Option.map_eq_some_iff.mp wrote
  have entry := entry_of_write written k
  simp only [Int.natCast_inj] at entry
  exact entry

theorem outside_of_put {numbers : Numbers cap} {i latency : BitVec 64} (stopped : numbers.put i latency = none) :
    ¬ Inside cap i.toNat := by
  intro inside
  have unread := write_eq_none_iff.mp (Option.map_eq_none_iff.mp stopped)
  rw [Overrun.read, dif_pos inside] at unread
  cases unread

theorem note_cases (s : Memory cap) (t : Times) :
    (s.note t = none ∧ ¬ (Inside cap s.totalReceived.toNat ∧ Inside cap (s.totalReceived + 1).toNat)) ∨
      ∃ s', s.note t = some s' ∧ s'.totalReceived = s.totalReceived + 1 ∧
        s'.strayed = (s.strayed || !decide (Inside cap s.totalReceived.toNat ∧ Inside cap (s.totalReceived + 1).toNat)) ∧
        s.nicKernel.put s.totalReceived t.nicKernel = some s'.nicKernel ∧
        s.nicUser.put (s.totalReceived + 1) t.nicUser = some s'.nicUser ∧
        s.kernelUser.put (s.totalReceived + 1) t.kernelUser = some s'.kernelUser := by
  unfold Memory.note
  cases kernel : s.nicKernel.put s.totalReceived t.nicKernel with
  | none => exact Or.inl ⟨rfl, fun inside => outside_of_put kernel inside.1⟩
  | some nicKernel =>
    cases user : s.nicUser.put (s.totalReceived + 1) t.nicUser with
    | none => exact Or.inl ⟨rfl, fun inside => outside_of_put user inside.2⟩
    | some nicUser =>
      cases both : s.kernelUser.put (s.totalReceived + 1) t.kernelUser with
      | none => exact Or.inl ⟨rfl, fun inside => outside_of_put both inside.2⟩
      | some kernelUser => exact Or.inr ⟨_, rfl, rfl, rfl, rfl, rfl, rfl⟩

/-! ### One call -/

theorem doRecvOn_eq (e : Endian) (r : Call) (past : Timespec × Timespec) (s : Memory cap) :
    doRecvOn e r past s =
      match printTimeOn r.stamps past r.timeUser s with
      | none => .faulted
      | some s => if r.skipped ∨ 0 ≤ r.got ∧ r.sendto = true then .returned r.got s (r.packet e) else .exited s := by
  unfold doRecvOn Call.stamps Call.packet
  by_cases skipped : r.skipped
  · obtain ⟨empty, again⟩ := skipped
    simp [Call.skipped, empty, again, printTimeOn]
  · have other : ¬(r.got = 0 ∧ r.eagain = true) := skipped
    rw [if_neg skipped]
    cases printTimeOn (retrieveTimestamp r.cmsgs) past r.timeUser s <;>
      simp only [if_neg other, skipped, false_or, if_false]

theorem turnOn_cases {l l' : LoopOn cfg.entries} {r : Call × Timespec × Timespec}
    (turned : cfg.turnOn e l r = some l') :
    l.status = .running ∧
      ((printTimeOn r.1.stamps r.2 r.1.timeUser l.st = none ∧
          l' = { l with status := .faulted, st := { l.st with strayed := true } }) ∨
        ∃ s, printTimeOn r.1.stamps r.2 r.1.timeUser l.st = some s ∧
          (l' = { l with status := .exited, st := s } ∨
            l'.st = s ∧ l'.packets = l.packets ++ (r.1.packet e).toList ∧
              (r.1.skipped ∨ 0 ≤ r.1.got ∧ r.1.sendto = true) ∧
              cfg.Goes r.1.got l.pktNum l'.status l'.pktNum)) := by
  unfold Configuration.turnOn at turned
  rw [doRecvOn_eq] at turned
  by_cases running : l.status = .running
  · refine ⟨running, ?_⟩
    rw [if_pos running] at turned
    cases printed : printTimeOn r.1.stamps r.2 r.1.timeUser l.st with
    | none =>
      rw [printed] at turned
      exact Or.inl ⟨rfl, (Option.some.inj turned).symm⟩
    | some s =>
      right
      refine ⟨s, rfl, ?_⟩
      rw [printed] at turned
      dsimp only at turned
      by_cases sent : r.1.skipped ∨ 0 ≤ r.1.got ∧ r.1.sendto = true
      · right
        rw [if_pos sent] at turned
        dsimp only at turned
        split at turned
        · rename_i ended
          obtain rfl := Option.some.inj turned
          exact ⟨rfl, rfl, sent, Or.inr ⟨rfl, Or.inl ended⟩⟩
        · rename_i going
          split at turned
          · rename_i more
            obtain rfl := Option.some.inj turned
            exact ⟨rfl, rfl, sent, Or.inl ⟨rfl, rfl, more, going⟩⟩
          · rename_i last
            obtain rfl := Option.some.inj turned
            rw [not_or] at last
            exact ⟨rfl, rfl, sent, Or.inr ⟨rfl, Or.inr last⟩⟩
      · rw [if_neg sent] at turned
        exact Or.inl (Option.some.inj turned).symm
  · rw [if_neg running] at turned
    cases turned

/-! ### Nothing outside accessed -/

def timedOn (rs : List (Call × Timespec × Timespec)) : List Times := rs.filterMap fun r => r.1.timesOn r.2

theorem timedOn_snoc (rs : List (Call × Timespec × Timespec)) (r : Call × Timespec × Timespec) :
    timedOn (rs ++ [r]) = timedOn rs ++ (r.1.timesOn r.2).toList := by
  rw [timedOn, List.filterMap_append]
  cases found : r.1.timesOn r.2 <;> simp [timedOn, found]

/-- The memory after the packets with these times, none of which has stopped the receiver. -/
structure HoldsOn (start : Memory cap) (times : List Times) (s : Memory cap) : Prop where
  total : s.totalReceived = BitVec.ofNat 64 times.length
  strayed : s.strayed = true ↔ max 1 cap ≤ times.length
  columns : times.length ≤ cap → Columns start.latencies times s.latencies

section Note

variable {start s : Memory cap} {times : List Times} (holds : HoldsOn start times s) (small : cap ≤ 4294967296)
include holds small

/-- With this packet something outside the arrays has been accessed, now or before. -/
theorem strays_iff :
    (s.strayed = true ∨ ¬ (Inside cap s.totalReceived.toNat ∧ Inside cap (s.totalReceived + 1).toNat)) ↔
      max 1 cap ≤ times.length + 1 := by
  rw [holds.strayed]
  by_cases full : max 1 cap ≤ times.length
  · exact iff_of_true (Or.inl full) (by omega)
  · have total : s.totalReceived.toNat = times.length := by
      rw [holds.total, BitVec.toNat_ofNat]
      omega
    have next : (s.totalReceived + 1).toNat = times.length + 1 := by
      have one : (1 : BitVec 64).toNat = 1 := rfl
      rw [BitVec.toNat_add, one, total]
      omega
    rw [total, next, inside_natCast, inside_natCast]
    omega

theorem holdsOn_note {t : Times} {s' : Memory cap} (noted : s.note t = some s') : HoldsOn start (times ++ [t]) s' := by
  rcases note_cases s t with ⟨stopped, -⟩ | ⟨s'', noted', total, strayed, kernel, user, both⟩
  · cases stopped.symm.trans noted
  · obtain rfl := Option.some.inj (noted'.symm.trans noted)
    refine ⟨?_, ?_, fun fits => ?_⟩
    · rw [total, holds.total, List.length_append, BitVec.ofNat_add]
      rfl
    · rw [strayed, List.length_append, List.length_singleton, ← strays_iff holds small, Bool.or_eq_true,
        Bool.not_eq_true', decide_eq_false_iff_not]
    · rw [List.length_append, List.length_singleton] at fits
      have columns := holds.columns (by omega)
      have before := columns.total
      change s.totalReceived.toNat = times.length at before
      have next : (s.totalReceived + 1).toNat = times.length + 1 := by
        have one : (1 : BitVec 64).toNat = 1 := rfl
        rw [BitVec.toNat_add, one, before]
        omega
      refine ⟨?_, fun i => ?_, fun i => ?_, fun i => ?_⟩
      · show s''.totalReceived.toNat = _
        rw [total, next, List.length_append, List.length_singleton]
      · rw [getD_append, ← before, ← columns.nicKernel]
        exact entries_of_put kernel i
      · rw [getD_before_append, ← next, ← columns.nicUser]
        exact entries_of_put user i
      · rw [getD_before_append, ← next, ← columns.kernelUser]
        exact entries_of_put both i

end Note

structure NotedOn (start : Memory cap) (l : LoopOn cap) (rs : List (Call × Timespec × Timespec)) : Prop where
  holds : l.status ≠ .faulted → HoldsOn start (timedOn rs) l.st
  stopped : l.status = .faulted → l.st.strayed = true ∧ max 1 cap ≤ (timedOn rs).length

theorem notedOn_turn {start : Memory cfg.entries} {l l' : LoopOn cfg.entries} {rs : List (Call × Timespec × Timespec)}
    {r : Call × Timespec × Timespec} (noted : NotedOn start l rs) (turned : cfg.turnOn e l r = some l') :
    NotedOn start l' (rs ++ [r]) := by
  obtain ⟨running, outcome⟩ := turnOn_cases turned
  have holds := noted.holds (by rw [running]; decide)
  have small := entries_small cfg
  rw [printTimeOn_eq] at outcome
  constructor
  · intro alive
    rcases outcome with ⟨-, rfl⟩ | ⟨s, printed, ended⟩
    · exact absurd rfl alive
    · have st : l'.st = s := by
        rcases ended with rfl | ⟨same, -⟩
        · rfl
        · exact same
      rw [st, timedOn_snoc]
      cases times : r.1.timesOn r.2 with
      | none =>
        rw [times] at printed
        obtain rfl := Option.some.inj printed
        rw [Option.toList_none, List.append_nil]
        exact holds
      | some t =>
        rw [times] at printed
        exact holdsOn_note holds small printed
  · intro faulted
    rcases outcome with ⟨printed, rfl⟩ | ⟨s, -, rfl | ⟨-, -, -, goes⟩⟩
    · refine ⟨rfl, ?_⟩
      cases times : r.1.timesOn r.2 with
      | none =>
        rw [times] at printed
        cases printed
      | some t =>
        rw [times] at printed
        rcases note_cases l.st t with ⟨-, outside⟩ | ⟨s', noted', -⟩
        · rw [timedOn_snoc, times, Option.toList_some, List.length_append, List.length_singleton]
          exact (strays_iff holds small).mp (Or.inr outside)
        · cases noted'.symm.trans printed
    · cases faulted
    · rcases goes with ⟨status, -⟩ | ⟨status, -⟩
      · cases status.symm.trans faulted
      · cases status.symm.trans faulted

/-- What `malloc` gave, with nothing received. -/
structure Memory.Fresh (start : Memory cap) : Prop where
  total : start.totalReceived = 0
  strayed : start.strayed = false

theorem notedOn_run {start : Memory cfg.entries} (fresh : start.Fresh) {l : LoopOn cfg.entries}
    {rs : List (Call × Timespec × Timespec)} (run : Run (cfg.turnOn e) Any (LoopOn.enter start) rs l) :
    NotedOn start l rs := by
  have noted := run_history (I := NotedOn start) (f := some) (h := [])
    (fun _ _ _ _ noted _ turned => notedOn_turn noted turned) ?_ run
  · rwa [List.filterMap_some, List.nil_append] at noted
  · refine ⟨fun _ => ⟨fresh.total, ?_, fun _ => columns_malloc start.latencies fresh.total⟩, fun faulted => by cases faulted⟩
    refine iff_of_false (fun strayed => ?_) (by simp [timedOn])
    cases fresh.strayed.symm.trans strayed

theorem countedOn_run {start : Memory cfg.entries} {l : LoopOn cfg.entries} {rs : List (Call × Timespec × Timespec)}
    (run : Run (cfg.turnOn e) Any (LoopOn.enter start) rs l) : Counted cfg l.status l.pktNum rs.length := by
  have counted := run_history
    (I := fun (l : LoopOn cfg.entries) (rs : List (Call × Timespec × Timespec)) =>
      Counted cfg l.status l.pktNum rs.length)
    (f := some) (h := []) ?_ (counted_enter cfg) run
  · rwa [List.filterMap_some, List.nil_append] at counted
  · intro l rs r l' counted _ turned
    obtain ⟨running, outcome⟩ := turnOn_cases turned
    rw [running] at counted
    rw [Option.toList_some, List.length_append, List.length_singleton]
    rcases outcome with ⟨-, rfl⟩ | ⟨s, -, rfl | ⟨-, -, -, goes⟩⟩
    · exact counted_of_stopped (Or.inr rfl)
    · exact counted_of_stopped (Or.inl rfl)
    · exact counted_goes counted goes

theorem length_timedOn (rs : List (Call × Timespec × Timespec)) :
    (timedOn rs).length = rs.countP fun r => r.1.stamps.isSome := by
  rw [timedOn, List.length_filterMap_eq_countP]
  exact List.countP_congr fun r _ => by rw [Call.timesOn, Option.isSome_map]

/-! ### The packets sent back -/

theorem packets_of_turnOn {l l' : LoopOn cfg.entries} {r : Call × Timespec × Timespec}
    (turned : cfg.turnOn e l r = some l') :
    l.packets.length ≤ l'.packets.length ∧
      l'.packets.length ≤ l.packets.length + if r.1.skipped then 0 else 1 := by
  obtain ⟨-, ⟨-, rfl⟩ | ⟨s, -, rfl | ⟨-, packets, -⟩⟩⟩ := turnOn_cases turned
  · exact ⟨Nat.le_refl _, Nat.le_add_right _ _⟩
  · exact ⟨Nat.le_refl _, Nat.le_add_right _ _⟩
  · rw [packets, List.length_append, Call.packet]
    split <;> simp

/-- Where every packet has timestamps, no more packets are sent back than have been noted. -/
theorem packets_le_stamped {start : Memory cfg.entries} {l : LoopOn cfg.entries}
    {rs : List (Call × Timespec × Timespec)} (run : Run (cfg.turnOn e) Any (LoopOn.enter start) rs l)
    (timed : ∀ r ∈ rs, r.1.skipped ∨ r.1.stamps.isSome = true) :
    l.packets.length ≤ rs.countP fun r => r.1.stamps.isSome := by
  have invariant := run_history
    (I := fun (l : LoopOn cfg.entries) (rs : List (Call × Timespec × Timespec)) =>
      (∀ r ∈ rs, r.1.skipped ∨ r.1.stamps.isSome = true) → l.packets.length ≤ rs.countP fun r => r.1.stamps.isSome)
    (f := some) (h := []) ?_ (fun _ => Nat.zero_le _) run
  · rw [List.filterMap_some, List.nil_append] at invariant
    exact invariant timed
  · intro l rs r l' kept _ turned
    show (∀ r' ∈ rs ++ [r], _) → l'.packets.length ≤ (rs ++ [r]).countP _
    intro timed
    have before := kept fun r' member => timed r' (List.mem_append_left _ member)
    have grown := (packets_of_turnOn turned).2
    rw [List.countP_append, List.countP_singleton]
    rcases timed r (List.mem_append_right _ (List.mem_singleton_self r)) with skipped | stamped
    · rw [if_pos skipped] at grown
      omega
    · rw [if_pos stamped]
      split at grown <;> omega

/-! ### Accesses outside the arrays -/

/-- Something outside the arrays has been accessed exactly when as many packets with timestamps have come as the
arrays have entries, or one to arrays of none. Nothing else stops the receiver there. -/
theorem rx_strays_iff (start : Memory cfg.entries) (fresh : start.Fresh) (rs : List (Call × Timespec × Timespec))
    (l : LoopOn cfg.entries) (run : Run (cfg.turnOn e) Any (LoopOn.enter start) rs l) :
    (l.st.strayed = true ↔ max 1 cfg.entries ≤ rs.countP fun r => r.1.stamps.isSome) ∧
      (l.status = .faulted → l.st.strayed = true) := by
  have noted := notedOn_run fresh run
  rw [← length_timedOn]
  refine ⟨?_, fun faulted => (noted.stopped faulted).1⟩
  by_cases faulted : l.status = .faulted
  · obtain ⟨strayed, full⟩ := noted.stopped faulted
    exact iff_of_true strayed full
  · exact (noted.holds faulted).strayed

/-- One place behind each array can be accessed, and 77 is what it holds too. -/
def pairNumbers : Numbers pair.entries := ⟨fun _ => 77, fun i => if i = 2 then some 77 else none⟩

def pairMemoryOn : Memory pair.entries := ⟨0, pairNumbers, pairNumbers, pairNumbers, false⟩

theorem fresh_pair : pairMemoryOn.Fresh := ⟨rfl, rfl⟩

/-- A packet with a timestamp of the other kind, which is too short, then one with all three. -/
def mixedArrivals : List (Call × Timespec × Timespec) :=
  [({ timedArrival with recvmsg := .message [1, 2, 3] ⟨0, 0⟩ [⟨solSocket, soTimestampns, 16, [⟨0, 500⟩]⟩] },
      ⟨0, 0⟩, ⟨0, 450⟩), (timedArrival, ⟨0, 0⟩, ⟨0, 0⟩)]

theorem run_mixed : ∃ l, Run (pair.turnOn .little) Any (LoopOn.enter pairMemoryOn) mixedArrivals l ∧
    (l.status, l.st.strayed) = (.left, true) :=
  run_of_exec (pair.turnOn .little) Any (LoopOn.enter pairMemoryOn) mixedArrivals (fun l => (l.status, l.st.strayed))
    (.left, true) (by decide +kernel)

/-- The second of two packets is noted behind the arrays, and the loop comes to its end. -/
theorem rx_strays_pair : ∃ l, Run (pair.turnOn .little) Any (LoopOn.enter pairMemoryOn) mixedArrivals l ∧
    l.status = .left ∧ max 1 pair.entries ≤ mixedArrivals.countP fun r => r.1.stamps.isSome := by
  obtain ⟨l, run, seen⟩ := run_mixed
  obtain ⟨left, strayed⟩ := Prod.mk.inj seen
  exact ⟨l, run, left, (rx_strays_iff pairMemoryOn fresh_pair _ l run).1.mp strayed⟩

/-! ### The end of the loop -/

theorem mapM_congr {α β : Type} {f g : α → Option β} {xs : List α} (same : ∀ x ∈ xs, f x = g x) :
    xs.mapM f = xs.mapM g := by
  induction xs with
  | nil => rfl
  | cons x xs ih =>
    rw [List.mapM_cons, List.mapM_cons, same x List.mem_cons_self,
      ih fun y member => same y (List.mem_cons_of_mem _ member)]

theorem file_of_latencies {s : Memory cap} (fits : s.totalReceived.toNat ≤ cap) : s.file = s.latencies.file := by
  refine congrArg (Option.map List.flatten) (mapM_congr fun i member => ?_)
  have below : i < s.totalReceived.toNat := List.mem_range.mp member
  have inside : i < cap := by omega
  rw [dif_pos inside, read_of_inside ⟨i, inside⟩, read_of_inside ⟨i, inside⟩, read_of_inside ⟨i, inside⟩]
  rfl

/-- Over UDP the loop ends after the number of packets of the command line, and has then accessed something outside
the arrays exactly when all of them had timestamps. The file is made of entries of the arrays in either case. -/
theorem left_over_udp (udp : cfg.cfgProtocol = .udp) (start : Memory cfg.entries) (fresh : start.Fresh)
    (rs : List (Call × Timespec × Timespec)) (l : LoopOn cfg.entries)
    (run : Run (cfg.turnOn e) Any (LoopOn.enter start) rs l) (left : l.status = .left) :
    0 < cfg.entries ∧ rs.length = cfg.entries ∧
      (l.st.strayed = true ↔ ∀ r ∈ rs, r.1.stamps.isSome = true) ∧
      ∃ file, l.st.file = some file ∧
        Summarize.getLatencyNumbers file = some ((timedOn rs).map fun t => t.nicKernel.toInt,
          (behind start.nicUser.entries (timedOn rs) Times.nicUser).map BitVec.toInt,
          (behind start.kernelUser.entries (timedOn rs) Times.kernelUser).map BitVec.toInt) := by
  obtain ⟨bounded, calls⟩ := (countedOn_run run).left left udp
  have holds := (notedOn_run fresh run).holds (by rw [left]; decide)
  have few : (timedOn rs).length ≤ rs.length := List.length_filterMap_le _ _
  have columns := holds.columns (by omega)
  refine ⟨bounded, calls, ?_, ?_⟩
  · rw [(rx_strays_iff start fresh rs l run).1, ← List.countP_eq_length]
    have most : (rs.countP fun r => r.1.stamps.isSome) ≤ rs.length := List.countP_le_length
    omega
  · have total : l.st.totalReceived.toNat = (timedOn rs).length := columns.total
    rw [file_of_latencies (by omega)]
    exact file_of_columns columns (by omega)

theorem left_over_udp_pair : ∃ l, Run (pair.turnOn .little) Any (LoopOn.enter pairMemoryOn) mixedArrivals l ∧
    l.st.strayed = true ∧ l.st.file.bind Summarize.getLatencyNumbers = some ([50, 100], [77, 550], [77, 500]) := by
  obtain ⟨l, run, seen⟩ := run_mixed
  obtain ⟨left, strayed⟩ := Prod.mk.inj seen
  obtain ⟨-, -, -, file, written, read⟩ := left_over_udp rfl pairMemoryOn fresh_pair _ l run left
  refine ⟨l, run, strayed, ?_⟩
  rw [written, Option.bind_some, read]
  decide +kernel

end Mdelay.Rx
