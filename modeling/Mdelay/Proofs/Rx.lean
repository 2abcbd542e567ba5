import Mathlib.Data.BitVec
import Mathlib.Tactic.Ring
import Mdelay.Library.Transition
import Mdelay.Model.Rx
import Mdelay.Proofs.Recording

/-!
# What the reference receiver notes and sends back

The counter is advanced between the writes of one packet's latencies, so two of the three go one entry too
far: the columns of the file are one packet apart, and the last entry lies outside.
-/

namespace Mdelay.Rx
open ByteOrder Transition

variable {cap : Nat} {e : Endian} {cfg : Configuration}

/-! ### The latencies of a packet -/

/-- The times of a packet: from the NIC, from the kernel, and in the program. -/
structure Times where
  nic : Timespec
  kernel : Timespec
  user : Timeval

def Times.nicKernel (t : Times) : BitVec 64 := t.kernel.nanos - t.nic.nanos

def Times.nicUser (t : Times) : BitVec 64 := t.user.nanos - t.nic.nanos

def Times.kernelUser (t : Times) : BitVec 64 := t.user.nanos - t.kernel.nanos

theorem difference (sec sec' nsec nsec' : BitVec 64) :
    (sec - sec') * 1000000000 + (nsec - nsec') = sec * 1000000000 + nsec - (sec' * 1000000000 + nsec') := by
  ring

def timesOf (ts : List Timespec) (user : Timeval) : Option Times :=
  match ts[0]?, ts[2]? with
  | some kernel, some nic => some ⟨nic, kernel, user⟩
  | _, _ => none

/-- The entry that belongs to packet `i` in the order of the writes, from the second on. -/
def before (times : List Times) : Nat → Option Times
  | 0 => none
  | i + 1 => times[i]?

/-- The arrays with the latencies of these packets. -/
structure Columns (start : Latencies cap) (times : List Times) (s : Latencies cap) : Prop where
  total : s.totalReceived.toNat = times.length
  nicKernel : ∀ i : Fin cap, s.nicKernel i = (times[i.val]?.map Times.nicKernel).getD (start.nicKernel i)
  nicUser : ∀ i : Fin cap, s.nicUser i = ((before times i).map Times.nicUser).getD (start.nicUser i)
  kernelUser : ∀ i : Fin cap, s.kernelUser i = ((before times i).map Times.kernelUser).getD (start.kernelUser i)

/-- So far nothing outside the arrays has been written. -/
structure Holds (start : Latencies cap) (times : List Times) (s : Latencies cap) : Prop extends
    Columns start times s where
  inside : times = [] ∨ times.length < cap

theorem put_eq_some_iff {numbers numbers' : Fin cap → BitVec 64} {i latency : BitVec 64} :
    put numbers i latency = some numbers' ↔
      i.toNat < cap ∧ ∀ j : Fin cap, numbers' j = if j.val = i.toNat then latency else numbers j := by
  unfold put
  constructor
  · intro done
    split at done
    · rename_i inside
      obtain rfl := Option.some.inj done
      refine ⟨inside, fun j => ?_⟩
      rw [Function.update_apply]
      simp only [Fin.ext_iff]
    · cases done
  · rintro ⟨inside, entries⟩
    rw [dif_pos inside]
    congr 1
    funext j
    rw [entries j, Function.update_apply]
    simp only [Fin.ext_iff]

theorem getD_append (times : List Times) (t : Times) (f : Times → BitVec 64) (old : BitVec 64) (i : Nat) :
    ((times ++ [t])[i]?.map f).getD old = if i = times.length then f t else (times[i]?.map f).getD old := by
  by_cases last : i = times.length
  · subst last
    simp
  · rw [if_neg last]
    by_cases inside : i < times.length
    · rw [List.getElem?_append_left inside]
    · have past : times.length + 1 ≤ i := by omega
      rw [List.getElem?_eq_none (by simpa using past), List.getElem?_eq_none (by omega)]

theorem getD_before_append (times : List Times) (t : Times) (f : Times → BitVec 64) (old : BitVec 64) (i : Nat) :
    ((before (times ++ [t]) i).map f).getD old =
      if i = times.length + 1 then f t else ((before times i).map f).getD old := by
  cases i with
  | zero => simp [before]
  | succ i =>
    show (((times ++ [t])[i]?).map f).getD old = if i + 1 = times.length + 1 then f t else (times[i]?.map f).getD old
    rw [getD_append]
    simp only [Nat.add_right_cancel_iff]

theorem columns_malloc (start : Latencies cap) (fresh : start.totalReceived = 0) : Columns start [] start := by
  refine ⟨?_, fun i => rfl, fun i => ?_, fun i => ?_⟩
  · rw [fresh]
    rfl
  · cases h : i.val <;> rfl
  · cases h : i.val <;> rfl

theorem put_isSome_iff {numbers : Fin cap → BitVec 64} {i latency : BitVec 64} :
    put numbers i latency = none ↔ cap ≤ i.toNat := by
  unfold put
  split <;> simp_all

theorem exists_put (numbers : Fin cap → BitVec 64) (i latency : BitVec 64) (inside : i.toNat < cap) :
    ∃ numbers', put numbers i latency = some numbers' ∧
      ∀ j : Fin cap, numbers' j = if j.val = i.toNat then latency else numbers j := by
  obtain ⟨numbers', wrote⟩ := Option.ne_none_iff_exists'.mp (mt put_isSome_iff.mp (Nat.not_le.mpr inside))
  exact ⟨numbers', wrote, (put_eq_some_iff.mp wrote).2⟩

/-- The writes of `print_time`. -/
def Latencies.note (s : Latencies cap) (t : Times) : Option (Latencies cap) :=
  (put s.nicKernel s.totalReceived t.nicKernel).bind fun nicKernel =>
    (put s.nicUser (s.totalReceived + 1) t.nicUser).bind fun nicUser =>
      (put s.kernelUser (s.totalReceived + 1) t.kernelUser).map fun kernelUser =>
        ⟨s.totalReceived + 1, nicKernel, nicUser, kernelUser⟩

theorem printTime_eq (ts : List Timespec) (user : Timeval) (s : Latencies cap) :
    printTime (some ts) user s = (timesOf ts user).bind s.note := by
  unfold printTime timesOf
  simp only [difference]
  generalize ts[0]? = kernel
  generalize ts[2]? = nic
  cases kernel with
  | none => rfl
  | some kernel => cases nic <;> rfl

section Note

variable {start s : Latencies cap} {times : List Times} (holds : Holds start times s) (small : cap ≤ 4294967296)
include holds small

theorem toNat_next : (s.totalReceived + 1).toNat = times.length + 1 := by
  have one : (1 : BitVec 64).toNat = 1 := rfl
  have short : times.length < 4294967296 := by
    rcases holds.inside with none | inside
    · simp [none]
    · omega
  rw [BitVec.toNat_add, one, holds.total]
  omega

theorem note_of_room (t : Times) (room : times.length + 1 < cap) :
    ∃ s', s.note t = some s' ∧ Holds start (times ++ [t]) s' := by
  have next := toNat_next holds small
  have total := holds.total
  obtain ⟨nicKernel, wrote, entries⟩ := exists_put s.nicKernel s.totalReceived t.nicKernel (by omega)
  obtain ⟨nicUser, wrote', entries'⟩ := exists_put s.nicUser (s.totalReceived + 1) t.nicUser (by omega)
  obtain ⟨kernelUser, wrote'', entries''⟩ := exists_put s.kernelUser (s.totalReceived + 1) t.kernelUser (by omega)
  refine ⟨⟨s.totalReceived + 1, nicKernel, nicUser, kernelUser⟩, ?_, ?_⟩
  · rw [Latencies.note, wrote, Option.bind_some, wrote', Option.bind_some, wrote'', Option.map_some]
  · refine ⟨⟨by simpa using next, fun i => ?_, fun i => ?_, fun i => ?_⟩, Or.inr (by simpa using room)⟩
    · rw [getD_append, ← total, ← holds.nicKernel]
      exact entries i
    · rw [getD_before_append, ← next, ← holds.nicUser]
      exact entries' i
    · rw [getD_before_append, ← next, ← holds.kernelUser]
      exact entries'' i

/-- The second write is the first to fail: it goes one entry further. -/
theorem note_of_full (t : Times) (full : cap ≤ times.length + 1) : s.note t = none := by
  have next := toNat_next holds small
  have outside : put s.nicUser (s.totalReceived + 1) t.nicUser = none := put_isSome_iff.mpr (by omega)
  rw [Latencies.note, outside]
  cases put s.nicKernel s.totalReceived t.nicKernel <;> rfl

end Note

/-! ### One call -/

def Call.skipped (r : Call) : Prop := r.got = 0 ∧ r.eagain = true

instance (r : Call) : Decidable r.skipped := inferInstanceAs (Decidable (_ ∧ _))

/-- The array of timestamps that a call prints. -/
def Call.stamps (r : Call) : Option (List Timespec) := if r.skipped then none else retrieveTimestamp r.cmsgs

def Call.times (r : Call) : Option Times := r.stamps.bind fun ts => timesOf ts r.timeUser

/-- There are timestamps, but not all three. -/
def Call.Short (r : Call) : Prop := r.stamps.isSome = true ∧ r.times = none

def Call.packet (e : Endian) (r : Call) : Option Packet :=
  if r.skipped then none
  else some ⟨ntohl e (Mdelayhdr.ofBytes e r.received).seq, r.got, r.received.take r.got.toNat⟩

theorem doRecv_eq (e : Endian) (r : Call) (s : Latencies cap) :
    doRecv e r s =
      match printTime r.stamps r.timeUser s with
      | none => .faulted
      | some s => if r.skipped ∨ 0 ≤ r.got ∧ r.sendto = true then .returned r.got s (r.packet e) else .exited := by
  unfold doRecv Call.stamps Call.packet
  by_cases skipped : r.skipped
  · obtain ⟨empty, again⟩ := skipped
    simp [Call.skipped, empty, again, printTime]
  · have other : ¬(r.got = 0 ∧ r.eagain = true) := skipped
    rw [if_neg skipped]
    cases printTime (retrieveTimestamp r.cmsgs) r.timeUser s <;>
      simp only [if_neg other, skipped, false_or, if_false]

/-! ### Runs -/

/-- The times of the packets that were timed, in order. -/
def timed (rs : List Call) : List Times := rs.filterMap Call.times

def echoed (e : Endian) (rs : List Call) : List Packet := rs.filterMap (Call.packet e)

/-- What the calls so far have done to a loop that has met no error. -/
def Noted (e : Endian) (start : Latencies cap) (l : Loop cap) (rs : List Call) : Prop :=
  l.status = .running ∨ l.status = .left →
    Holds start (timed rs) l.st ∧ l.packets = echoed e rs ∧ ∀ r ∈ rs, r.skipped ∨ 0 ≤ r.got ∧ r.sendto = true

theorem entries_small (cfg : Configuration) : cfg.entries ≤ 4294967296 := Nat.le_of_lt cfg.cfgMaxPackets.isLt

/-- A call notes the times of its packet, if it has any, or faults. -/
theorem printTime_cases {start s : Latencies cap} {rs : List Call} (holds : Holds start (timed rs) s)
    (small : cap ≤ 4294967296) (r : Call) :
    (∃ s', printTime r.stamps r.timeUser s = some s' ∧ Holds start (timed (rs ++ [r])) s' ∧ ¬ r.Short) ∨
    (printTime r.stamps r.timeUser s = none ∧ (max 1 cap ≤ (timed (rs ++ [r])).length ∨ r.Short)) := by
  have snoc : timed (rs ++ [r]) = timed rs ++ r.times.toList := by
    rw [timed, List.filterMap_append]
    cases found : r.times <;> simp [timed, found]
  cases stamps : r.stamps with
  | none =>
    left
    have none : r.times = none := by rw [Call.times, stamps, Option.bind_none]
    refine ⟨s, rfl, ?_, fun short => ?_⟩
    · rw [snoc, none, Option.toList_none, List.append_nil]
      exact holds
    · rw [Call.Short, stamps] at short
      exact Bool.false_ne_true short.1
  | some ts =>
    have times : r.times = timesOf ts r.timeUser := by rw [Call.times, stamps, Option.bind_some]
    rw [printTime_eq, ← times]
    cases found : r.times with
    | none => exact Or.inr ⟨rfl, Or.inr ⟨by rw [stamps]; rfl, found⟩⟩
    | some t =>
      rw [found] at snoc
      by_cases room : (timed rs).length + 1 < cap
      · obtain ⟨s', noted, holds'⟩ := note_of_room holds small t room
        exact Or.inl ⟨s', noted, snoc ▸ holds', fun short => by rw [Call.Short, found] at short; cases short.2⟩
      · refine Or.inr ⟨note_of_full holds small t (Nat.not_lt.mp room), Or.inl ?_⟩
        rw [snoc, List.length_append, Option.toList_some, List.length_singleton]
        omega

/-- How the loop goes on when a call has returned. -/
def Configuration.Goes (cfg : Configuration) (got : Int) (pktNum : BitVec 32) (status' : LoopStatus)
    (pktNum' : BitVec 32) : Prop :=
  (status' = .running ∧ pktNum' = pktNum + 1 ∧
      (pktNum < cfg.cfgMaxPackets ∨ cfg.cfgMaxPackets = 0) ∧ ¬(got = 0 ∧ cfg.cfgProtocol = .tcp)) ∨
    (status' = .left ∧ ((got = 0 ∧ cfg.cfgProtocol = .tcp) ∨ (¬ pktNum < cfg.cfgMaxPackets ∧ cfg.cfgMaxPackets ≠ 0)))

theorem turn_cases {l l' : Loop cfg.entries} {r : Call} (turned : cfg.turn e l r = some l') :
    l.status = .running ∧
      ((printTime r.stamps r.timeUser l.st = none ∧ l' = { l with status := .faulted }) ∨
        ∃ s, printTime r.stamps r.timeUser l.st = some s ∧
          (l' = { l with status := .exited } ∨
            l'.st = s ∧ l'.packets = l.packets ++ (r.packet e).toList ∧ (r.skipped ∨ 0 ≤ r.got ∧ r.sendto = true) ∧
              cfg.Goes r.got l.pktNum l'.status l'.pktNum)) := by
  unfold Configuration.turn at turned
  rw [doRecv_eq] at turned
  by_cases running : l.status = .running
  · refine ⟨running, ?_⟩
    rw [if_pos running] at turned
    cases printed : printTime r.stamps r.timeUser l.st with
    | none =>
      rw [printed] at turned
      exact Or.inl ⟨rfl, (Option.some.inj turned).symm⟩
    | some s =>
      right
      refine ⟨s, rfl, ?_⟩
      rw [printed] at turned
      dsimp only at turned
      by_cases sent : r.skipped ∨ 0 ≤ r.got ∧ r.sendto = true
      · right
        rw [if_pos sent] at turned
        dsimp only at turned
        split at turned
        · rename_i ended
          obtain rfl := Option.some.inj turned
          exact ⟨rfl, rfl, sent, Or.inr ⟨rfl, Or.inl ended⟩⟩
        · rename_i going
          split at turned
          · rename_i more
            obtain rfl := Option.some.inj turned
            exact ⟨rfl, rfl, sent, Or.inl ⟨rfl, rfl, more, going⟩⟩
          · rename_i last
            obtain rfl := Option.some.inj turned
            rw [not_or] at last
            exact ⟨rfl, rfl, sent, Or.inr ⟨rfl, Or.inr last⟩⟩
      · rw [if_neg sent] at turned
        exact Or.inl (Option.some.inj turned).symm
  · rw [if_neg running] at turned
    cases turned

theorem noted_turn {start : Latencies cfg.entries} {l l' : Loop cfg.entries} {rs : List Call} {r : Call}
    (noted : Noted e start l rs) (turned : cfg.turn e l r = some l') : Noted e start l' (rs ++ [r]) := by
  intro alive
  obtain ⟨running, outcome⟩ := turn_cases turned
  obtain ⟨holds, packets, fine⟩ := noted (Or.inl running)
  rcases outcome with ⟨-, rfl⟩ | ⟨s, printed, rfl | ⟨st, packet, sent, -⟩⟩
  · simp at alive
  · simp at alive
  · rcases printTime_cases holds (entries_small cfg) r with ⟨s', printed', holds', -⟩ | ⟨printed', -⟩
    · obtain rfl := Option.some.inj (printed.symm.trans printed')
      have echo : echoed e (rs ++ [r]) = echoed e rs ++ (r.packet e).toList := by
        rw [echoed, List.filterMap_append]
        cases found : r.packet e <;> simp [echoed, found]
      refine ⟨st ▸ holds', by rw [packet, packets, echo], List.forall_mem_append.mpr ⟨fine, ?_⟩⟩
      exact List.forall_mem_singleton.mpr sent
    · cases printed.symm.trans printed'

theorem noted_run {start : Latencies cfg.entries} (fresh : start.totalReceived = 0) {l : Loop cfg.entries}
    {rs : List Call} (run : Run (cfg.turn e) Any (Loop.enter start) rs l) : Noted e start l rs := by
  have noted := run_history (I := Noted e start) (f := some) (h := [])
    (fun _ _ _ _ noted _ turned => noted_turn noted turned) ?_ run
  · rwa [List.filterMap_some, List.nil_append] at noted
  · exact fun _ => ⟨⟨columns_malloc start fresh, Or.inl rfl⟩, rfl, List.forall_mem_nil _⟩

/-! ### The file -/

/-- A packet of three bytes, with its times or without. -/
def arrival (times : List Timespec) (user : Timeval) : Call where
  buffer := List.replicate bufferSize 0
  control := []
  recvmsg := .message [1, 2, 3] ⟨0, 0⟩ [⟨solSocket, soTimestamping, 16 * times.length, times⟩]
  eagain := false
  timeUser := user
  sendto := true
  size := List.length_replicate

/-- A receiver of two packets; 77 is what its memory held. -/
def pair : Configuration := ⟨none, 1337, .udp, 2⟩

def timedArrival : Call := arrival [⟨0, 500⟩, ⟨0, 0⟩, ⟨0, 400⟩] ⟨0, 1⟩

/-- A column that is one packet behind: first what the memory held, then the packets but the last. -/
def behind (start : Fin cap → BitVec 64) (times : List Times) (f : Times → BitVec 64) : List (BitVec 64) :=
  ((List.ofFn start).take 1 ++ times.map f).take times.length

@[simp] theorem length_behind (start : Fin cap → BitVec 64) (times : List Times) (f : Times → BitVec 64) :
    (behind start times f).length = times.length := by
  simp only [behind, List.length_take, List.length_append, List.length_map, List.length_ofFn]
  omega

theorem behind_eq (start : Fin cap → BitVec 64) (times : List Times) (f : Times → BitVec 64) {i : Nat} (inside : i < cap)
    (below : i < times.length) :
    ((before times i).map f).getD (start ⟨i, inside⟩) = (behind start times f)[i]?.getD 0 := by
  have first : (List.ofFn start).take 1 = [start ⟨0, by omega⟩] := by
    cases cap with
    | zero => omega
    | succ cap => rw [List.ofFn_succ]; rfl
  rw [behind, first, List.getElem?_take_of_lt below]
  cases i with
  | zero => rfl
  | succ i =>
    rw [List.singleton_append, List.getElem?_cons_succ, List.getElem?_map]
    show (times[i]?.map f).getD _ = (times[i]?.map f).getD 0
    rw [List.getElem?_eq_getElem (by omega)]
    rfl

theorem range_map_getD {α : Type} (xs : List α) (d : α) : (List.range xs.length).map (fun i => xs[i]?.getD d) = xs := by
  apply List.ext_getElem
  · simp
  · intro i _ inside
    simp [List.getElem?_eq_getElem inside]

/-- One line of the file, without its end. -/
def row (nicUser nicKernel kernelUser : BitVec 64) : List Char :=
  Text.signed nicUser.toInt ++ ',' :: Text.signed nicKernel.toInt ++ ',' :: Text.signed kernelUser.toInt

theorem readLine_line (nicUser nicKernel kernelUser : BitVec 64) :
    Summarize.readLine (row nicUser nicKernel kernelUser ++ ['\n']) =
      some (nicKernel.toInt, nicUser.toInt, kernelUser.toInt) := by
  have plain (n : Int) : ',' ∉ Text.signed n := Text.not_mem_signed (by decide) (by decide) n
  have split : (row nicUser nicKernel kernelUser ++ ['\n']).splitOn ',' =
      [Text.signed nicUser.toInt, Text.signed nicKernel.toInt, Text.signed kernelUser.toInt ++ ['\n']] := by
    have joined : ([','].intercalate [Text.signed nicUser.toInt, Text.signed nicKernel.toInt,
        Text.signed kernelUser.toInt ++ ['\n']]).splitOn ',' = _ :=
      List.splitOn_intercalate ',' (by simp [plain]) (List.cons_ne_nil _ _)
    rw [← joined]
    simp [row, List.intercalate]
  have number (n : Int) : Text.readInt (Text.signed n) = some n := by
    have read := Text.readInt_signed n [] (by simp)
    rwa [List.append_nil] at read
  unfold Summarize.readLine
  simp [split, number, Text.readInt_signed, Char.isWhitespace]

/-- What the script reads of the latencies of these packets, where the arrays hold so many. -/
theorem file_of_columns {start s : Latencies cap} {times : List Times} (columns : Columns start times s)
    (fits : times.length ≤ cap) :
    ∃ file, s.file = some file ∧
      Summarize.getLatencyNumbers file = some (times.map fun t => t.nicKernel.toInt,
        (behind start.nicUser times Times.nicUser).map BitVec.toInt,
        (behind start.kernelUser times Times.kernelUser).map BitVec.toInt) := by
  let nicUser (i : Nat) := (behind start.nicUser times Times.nicUser)[i]?.getD 0
  let nicKernel (i : Nat) := (times.map Times.nicKernel)[i]?.getD 0
  let kernelUser (i : Nat) := (behind start.kernelUser times Times.kernelUser)[i]?.getD 0
  let rows := (List.range times.length).map fun i => row (nicUser i) (nicKernel i) (kernelUser i)
  have printed : s.file = some (rows.map fun cells => cells ++ ['\n']).flatten := by
    rw [Latencies.file, columns.total, List.map_map, mapM_eq_map]
    · rfl
    · intro i member
      have below := List.mem_range.mp member
      have inside : i < cap := by omega
      have kernel : s.nicKernel ⟨i, inside⟩ = nicKernel i := by
        rw [columns.nicKernel]
        simp [nicKernel, List.getElem?_eq_getElem below]
      rw [dif_pos inside, kernel, columns.nicUser, columns.kernelUser, behind_eq _ _ _ inside below,
        behind_eq _ _ _ inside below]
      simp only [line, row, Function.comp_apply, List.append_assoc, List.cons_append]
      rfl
  refine ⟨_, printed, ?_⟩
  have plain : ∀ cells ∈ rows, '\n' ∉ cells := by
    intro cells member
    obtain ⟨i, -, rfl⟩ := List.mem_map.mp member
    simp [row, Text.not_mem_signed]
  have read : (rows.map fun cells => cells ++ ['\n']).mapM Summarize.readLine =
      some ((List.range times.length).map fun i => ((nicKernel i).toInt, (nicUser i).toInt, (kernelUser i).toInt)) := by
    rw [List.map_map, List.mapM_map]
    exact mapM_eq_map fun i _ => readLine_line (nicUser i) (nicKernel i) (kernelUser i)
  have column (xs : List (BitVec 64)) (size : xs.length = times.length) :
      ((List.range times.length).map fun i => (xs[i]?.getD 0).toInt) = xs.map BitVec.toInt := by
    have cells := congrArg (List.map BitVec.toInt) (range_map_getD xs 0)
    rwa [List.map_map, size] at cells
  rw [Summarize.getLatencyNumbers, Text.readlines_flatten plain, read]
  simp only [Option.map_some, List.map_map, Function.comp_def]
  rw [column _ (length_behind _ _ _), column _ (length_behind _ _ _), column _ (List.length_map _), List.map_map]
  rfl

def Call.returns (r : Call) : Option (List Byte) :=
  match r.recvmsg with
  | .error => none
  | .message bytes _ _ => if bytes = [] ∧ r.eagain then none else some (bytes.take bufferSize)

theorem packet_of_returned {r : Call} (returned : r.skipped ∨ 0 ≤ r.got ∧ r.sendto = true) :
    r.recvmsg ≠ .error ∧ (r.packet e).map Packet.datagram = r.returns ∧
      ∀ p ∈ r.packet e, sizeofMdelayhdr ≤ p.datagram.length → p.seq = (decode e p.datagram).seq := by
  cases arrived : r.recvmsg with
  | error =>
    have got : r.got = -1 := by rw [Call.got, arrived]
    rw [Call.skipped, got] at returned
    rcases returned with ⟨wrong, -⟩ | ⟨wrong, -⟩ <;> cases wrong
  | message bytes src cmsgs =>
    have got : r.got = (bytes.take bufferSize).length := by rw [Call.got, arrived]
    have received : r.received = memcpy r.buffer (bytes.take bufferSize) := by rw [Call.received, arrived]
    have taken : r.received.take r.got.toNat = bytes.take bufferSize := by
      rw [got, received, memcpy, Int.toNat_natCast, List.take_left]
    have empty : r.skipped ↔ bytes = [] ∧ r.eagain = true := by
      rw [Call.skipped, got, Int.natCast_eq_zero, List.length_eq_zero_iff, List.take_eq_nil_iff]
      simp [bufferSize]
    refine ⟨Recvmsg.noConfusion, ?_, fun p found full => ?_⟩
    · unfold Call.packet Call.returns
      rw [arrived, taken]
      simp only [empty]
      split <;> rfl
    · unfold Call.packet at found
      split at found
      · cases found
      · obtain rfl := Option.some.inj found
        dsimp only at full ⊢
        rw [taken] at full ⊢
        have whole : 40 ≤ (bytes.take bufferSize).length := full
        have front : r.received.take 40 = (bytes.take bufferSize).take 40 := by
          rw [received, memcpy, List.take_append_of_le_length whole]
        show (decode e r.received).seq = _
        rw [← decode_take, front, decode_take]

structure Counted (cfg : Configuration) (status : LoopStatus) (pktNum : BitVec 32) (calls : Nat) : Prop where
  running : status = .running → pktNum = BitVec.ofNat 32 (calls + 1) ∧ (cfg.entries = 0 ∨ calls < cfg.entries)
  left : status = .left → cfg.cfgProtocol = .udp → 0 < cfg.entries ∧ calls = cfg.entries

theorem counted_enter (cfg : Configuration) : Counted cfg .running 1 0 :=
  ⟨fun _ => ⟨rfl, Nat.eq_zero_or_pos _⟩, fun left => by cases left⟩

theorem counted_of_stopped {status : LoopStatus} {pktNum : BitVec 32} {calls : Nat}
    (stopped : status = .exited ∨ status = .faulted) : Counted cfg status pktNum calls := by
  rcases stopped with rfl | rfl
  · exact ⟨LoopStatus.noConfusion, LoopStatus.noConfusion⟩
  · exact ⟨LoopStatus.noConfusion, LoopStatus.noConfusion⟩

theorem counted_goes {got : Int} {pktNum pktNum' : BitVec 32} {status' : LoopStatus} {calls : Nat}
    (counted : Counted cfg .running pktNum calls) (goes : cfg.Goes got pktNum status' pktNum') :
    Counted cfg status' pktNum' (calls + 1) := by
  obtain ⟨number, few⟩ := counted.running rfl
  have small := cfg.cfgMaxPackets.isLt
  have more : pktNum < cfg.cfgMaxPackets ↔ (calls + 1) % 4294967296 < cfg.entries := by
    rw [number, BitVec.lt_def, BitVec.toNat_ofNat]
    rfl
  have forever : cfg.cfgMaxPackets = 0 ↔ cfg.entries = 0 := by
    rw [← BitVec.toNat_inj]
    rfl
  change cfg.entries < _ at small
  rcases goes with ⟨status, next, going, -⟩ | ⟨status, ended⟩
  · refine ⟨fun _ => ⟨?_, ?_⟩, by simp [status]⟩
    · rw [next, number, BitVec.ofNat_add (calls + 1)]
      rfl
    · rw [more, forever] at going
      omega
  · refine ⟨by simp [status], fun _ udp => ?_⟩
    rcases ended with ⟨-, tcp⟩ | ⟨last, bounded⟩
    · rw [udp] at tcp
      cases tcp
    · rw [more] at last
      rw [ne_eq, forever] at bounded
      omega

theorem counted_run {start : Latencies cfg.entries} {l : Loop cfg.entries} {rs : List Call}
    (run : Run (cfg.turn e) Any (Loop.enter start) rs l) : Counted cfg l.status l.pktNum rs.length := by
  have counted := run_history (I := fun (l : Loop cfg.entries) (rs : List Call) => Counted cfg l.status l.pktNum rs.length)
    (f := some) (h := []) ?_ (counted_enter cfg) run
  · rwa [List.filterMap_some, List.nil_append] at counted
  · intro l rs r l' counted _ turned
    obtain ⟨running, outcome⟩ := turn_cases turned
    rw [running] at counted
    rw [Option.toList_some, List.length_append, List.length_singleton]
    rcases outcome with ⟨-, rfl⟩ | ⟨s, -, rfl | ⟨-, -, -, goes⟩⟩
    · exact counted_of_stopped (Or.inr rfl)
    · exact counted_of_stopped (Or.inl rfl)
    · exact counted_goes counted goes

end Mdelay.Rx
