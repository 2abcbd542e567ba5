import Mdelay.Proofs.Allocation
import Mdelay.Proofs.Index
import Mdelay.Proofs.Requests
import Mdelay.Proofs.Simulation

/-!
# Which copy of a datagram counts

A program writes every half it receives over the one it holds, so an entry keeps the last event and
the last follow-up of its number that came while the loop ran. At the slave all follow-ups of a number
say the same.
-/

namespace Mdelay
open ByteOrder TwoStep Transition

variable {cap : Nat} {c : Config} {s t : Sys c} {r : Role} {l : Label} {ls ls' : List Label}

/-! ### One entry -/

def P2pdelay.write (k : Nat) (d : P2pdelay) : Half (BitVec 64) → P2pdelay
  | .event j t => if j = k then { d with recvTt := t } else d
  | .followUp j t => if j = k then { d with sentTt := t } else d

theorem entry_modify {m m' : Measurements cap} {j : Nat} {f : P2pdelay → P2pdelay} (written : m.modify j f = some m')
    (k : Fin cap) :
    m'.p2pdelayMeasurements k = if j = k then f (m.p2pdelayMeasurements k) else m.p2pdelayMeasurements k := by
  have inside := (of_modify written).1.2
  rw [modify_of_lt m (by omega)] at written
  obtain rfl := Option.some.inj written
  by_cases same : j = k
  · subst same
    simp
  · have other : k ≠ ⟨j, by omega⟩ := fun number => same (congrArg Fin.val number).symm
    simp [same, Function.update_of_ne other]

theorem entry_take {m m' : Measurements cap} {h : Half (BitVec 64)} (taken : m.take h = some m') (k : Fin cap) :
    m'.p2pdelayMeasurements k = (m.p2pdelayMeasurements k).write k h := by
  cases h with
  | event j t => exact entry_modify (j := j) (f := fun d => { d with recvTt := t }) taken k
  | followUp j t => exact entry_modify (m := m.count) (j := j) (f := fun d => { d with sentTt := t }) taken k

theorem foldl_write (hs : List (Half (BitVec 64))) (k : Nat) (d : P2pdelay) :
    hs.foldl (P2pdelay.write k) d = ⟨((record hs).sent k).getD d.sentTt, ((record hs).recv k).getD d.recvTt⟩ := by
  induction hs using List.reverseRecOn with
  | nil => rfl
  | append_singleton hs h ih =>
    rw [List.foldl_append, ih, record_snoc]
    cases h with
    | event j t => by_cases same : k = j <;> simp [P2pdelay.write, same, @eq_comm _ j]
    | followUp j t => by_cases same : k = j <;> simp [P2pdelay.write, same, @eq_comm _ j]

/-! ### One datagram -/

theorem half_event {p : Program} {bytes : List Byte} (full : 40 ≤ bytes.length) (src : SockaddrIn)
    {cmsgs : List Cmsghdr} {ts : Timespec} (type : (decode .big bytes).type = p.event.code)
    (read : nicTime cmsgs = some ts) :
    p.half (.message bytes src cmsgs) = some (.event (decode .big bytes).seq.toNat ts.nanos) := by
  have whole : ¬ bytes.length < sizeofMdelayhdr := Nat.not_lt.mpr full
  unfold Program.half
  dsimp only
  rw [if_neg whole, if_pos type, read]
  rfl

theorem half_followUp {p : Program} {bytes : List Byte} (full : 40 ≤ bytes.length) (src : SockaddrIn)
    (cmsgs : List Cmsghdr) (type : (decode .big bytes).type = p.followUp.code)
    (apart : p.followUp.code ≠ p.event.code) :
    p.half (.message bytes src cmsgs) =
      some (.followUp (decode .big bytes).seq.toNat (p.stamp (decode .big bytes))) := by
  have whole : ¬ bytes.length < sizeofMdelayhdr := Nat.not_lt.mpr full
  have other : (decode .big bytes).type ≠ p.event.code := by
    rw [type]
    exact apart
  unfold Program.half
  dsimp only
  rw [if_neg whole, if_neg other, if_pos type]

/-- The signed number of a datagram whose index was inside the array. -/
theorem toInt_of_modify {m m' : Measurements Master.entries} {v : BitVec 32} {f : P2pdelay → P2pdelay}
    (written : m.modify v.toInt f = some m') : v.toInt = v.toNat := by
  have small := (signed_inside_iff v).mp (of_modify written).1
  rw [BitVec.toInt_eq_toNat_of_lt (by omega)]

theorem Master.take_of_outcome {e : Endian} {measureNumber : BitVec 32} {k : Stack} {bytes : List Byte}
    {src : SockaddrIn} {cmsgs : List Cmsghdr} {m m' : Measurements Master.entries} {got : Int}
    (full : 40 ≤ bytes.length)
    (outcome : (Master.doRecv e k (.message bytes src cmsgs) m).outcome = some (got, m')) :
    ∃ h, (Master.program e measureNumber).half (.message bytes src cmsgs) = some h ∧ m.take h = some m' := by
  have positive := got_pos bytes src cmsgs (by rintro rfl; cases full)
  have arms := Master.of_outcome outcome
  rw [decode_buffer e k src cmsgs full] at arms
  rcases arms with ⟨empty, -⟩ | ⟨type, ts, read, written⟩ | ⟨type, written⟩
  · exact absurd empty (Int.ne_of_gt positive)
  · have number := toInt_of_modify written
    rw [number] at written
    exact ⟨_, half_event full src type read, written⟩
  · have number := toInt_of_modify written
    rw [number] at written
    exact ⟨_, half_followUp full src cmsgs type
      (show PktType.delayRespFollowUp.code ≠ PktType.delayResp.code by decide), written⟩

theorem Slave.take_of_outcome {e : Endian} {measureNumber : BitVec 32} {k : Stack} {bytes : List Byte}
    {src : SockaddrIn} {cmsgs : List Cmsghdr} {st st' : Slave.State (Slave.entries measureNumber)} {got : Int}
    (full : 40 ≤ bytes.length)
    (outcome : (Slave.doRecv e k (.message bytes src cmsgs) st).outcome = some (got, st')) :
    ∃ h, (Slave.program e measureNumber).half (.message bytes src cmsgs) = some h ∧
      st.meas.take h = some st'.meas := by
  have positive := got_pos bytes src cmsgs (by rintro rfl; cases full)
  have arms := Slave.of_outcome outcome
  rw [decode_buffer e k src cmsgs full] at arms
  rcases arms with ⟨empty, -⟩ | ⟨u, host, m, recorded, rfl, arm⟩
  · exact absurd empty (Int.ne_of_gt positive)
  · rw [← Slave.recordPeer_meas recorded]
    rcases arm with ⟨type, ts, read, written⟩ | ⟨type, written⟩
    · exact ⟨_, half_event full src type read, written⟩
    · exact ⟨_, half_followUp full src cmsgs type
        (show PktType.delayReqFollowUp.code ≠ PktType.delayReq.code by decide), written⟩

theorem take_of_outcome {k : Stack} {d : Datagram} {cmsgs : List Cmsghdr} {st st' : (c.program r).State} {got : Int}
    (full : 40 ≤ d.bytes.length)
    (outcome : ((c.program r).doRecv k (.message d.bytes d.src cmsgs) st).outcome = some (got, st')) :
    ∃ h, (c.program r).half (.message d.bytes d.src cmsgs) = some h ∧
      ((c.program r).measurements st).take h = some ((c.program r).measurements st') := by
  cases r with
  | master => exact Master.take_of_outcome full outcome
  | slave => exact Slave.take_of_outcome full outcome

/-! ### Runs -/

def Sys.entry (s : Sys c) (r : Role) (k : Fin (c.program r).cap) : P2pdelay :=
  ((c.program r).measurements (s.host r).loop.st).p2pdelayMeasurements k

/-- The half that `r` processes in a step: the datagram delivered to it, if `do_recv` gets past it. -/
def Sys.processed (s : Sys c) (r : Role) : Label → Option (Half (BitVec 64))
  | .deliver r' i k cmsgs =>
    if r' = r then
      (s.net[i]?).bind fun d =>
        let m := Recvmsg.message d.bytes d.src cmsgs
        if ((c.program r).doRecv k m (s.host r).loop.st).outcome.isSome then (c.program r).half m else none
    else none
  | _ => none

def Sys.halves (r : Role) : Sys c → List Label → List (Half (BitVec 64))
  | _, [] => []
  | s, l :: ls =>
    (s.processed r l).toList ++
      match s.step l with
      | some t => t.halves r ls
      | none => []

theorem halves_cons (taken : s.step l = some t) (r : Role) (ls : List Label) :
    s.halves r (l :: ls) = (s.processed r l).toList ++ t.halves r ls := by
  rw [Sys.halves, taken]

theorem processed_of_found {i : Nat} {d : Datagram} (found : s.net[i]? = some d) (k : Stack) (cmsgs : List Cmsghdr) :
    s.processed r (.deliver r i k cmsgs) =
      if ((c.program r).doRecv k (.message d.bytes d.src cmsgs) (s.host r).loop.st).outcome.isSome then
        (c.program r).half (.message d.bytes d.src cmsgs) else none := by
  unfold Sys.processed
  dsimp only
  rw [if_pos rfl, found, Option.bind_some]

/-- Only a delivery and the return of the slave's call touch a loop. -/
theorem loop_of_step (taken : s.step l = some t) (r : Role) :
    ((t.host r).loop = (s.host r).loop ∧ s.processed r l = none) ∨ (∃ i k cmsgs, l = .deliver r i k cmsgs) ∨
      l = .resume ∧ r = .slave := by
  have calls (r' : Role) (x : Option Sender) (q : ErrQueue) :
      ((s.setHost r' { s.host r' with sender := x, errq := q }).host r).loop = (s.host r).loop :=
    setHost_loop (h := { s.host r' with sender := x, errq := q }) rfl r
  have sends (r' : Role) (sw nic : Timespec) (out : Sender × Option (List Byte)) :
      ((s.sendto r' sw nic out).host r).loop = (s.host r).loop := by
    obtain ⟨x', bytes⟩ := out
    cases bytes with
    | none => exact calls r' (some x') (s.host r').errq
    | some bytes => exact calls r' (some x') ((s.host r').errq.sendto sw nic)
  cases l with
  | event r' tv sw nic =>
    obtain ⟨x, -, -, rfl⟩ := step_event.mp taken
    exact Or.inl ⟨sends r' sw nic _, rfl⟩
  | followUp r' sw nic =>
    obtain ⟨x, -, -, rfl⟩ := step_followUp.mp taken
    exact Or.inl ⟨sends r' sw nic _, rfl⟩
  | poll r' =>
    obtain ⟨x, -, -, rfl⟩ := step_poll.mp taken
    exact Or.inl ⟨calls r' _ _, rfl⟩
  | loopback r' =>
    obtain ⟨q, -, rfl⟩ := step_loopback.mp taken
    exact Or.inl ⟨calls r' (s.host r').sender q, rfl⟩
  | resume =>
    cases r with
    | slave => exact Or.inr (Or.inr ⟨rfl, rfl⟩)
    | master =>
      obtain ⟨x, -, -, rfl⟩ := step_resume.mp taken
      exact Or.inl ⟨congrArg Host.loop (setHost_of_ne (by decide) _), rfl⟩
  | deliver r' i k cmsgs =>
    by_cases here : r' = r
    · subst here
      exact Or.inr (Or.inl ⟨i, k, cmsgs, rfl⟩)
    · obtain ⟨d, nic, -, -, -, rfl⟩ := step_deliver.mp taken
      exact Or.inl ⟨congrArg Host.loop (setHost_of_ne (Ne.symm here) _), if_neg here⟩
  | drop i =>
    obtain ⟨-, rfl⟩ := step_drop.mp taken
    exact Or.inl ⟨rfl, rfl⟩
  | dup i =>
    obtain ⟨d, -, rfl⟩ := step_dup.mp taken
    exact Or.inl ⟨rfl, rfl⟩

theorem receive_st {p : Program} (h : Host p) (outcome : DoRecv p.State) :
    (h.receive outcome).loop.st = (outcome.outcome.map Prod.snd).getD h.loop.st := by
  cases outcome <;> rfl

theorem entry_deliver (sound : s.Sound) {i : Nat} {k : Stack} {cmsgs : List Cmsghdr}
    (taken : s.step (.deliver r i k cmsgs) = some t) (j : Fin (c.program r).cap) :
    t.entry r j = (s.processed r (.deliver r i k cmsgs)).toList.foldl (P2pdelay.write j) (s.entry r j) := by
  obtain ⟨d, nic, found, -, -, rfl⟩ := step_deliver.mp taken
  have whole := (sound.net d (List.mem_of_getElem? found)).1
  have after (outcome : DoRecv (c.program r).State) : (s.setHost r ((s.host r).receive outcome)).entry r j =
      ((c.program r).measurements ((outcome.outcome.map Prod.snd).getD (s.host r).loop.st)).p2pdelayMeasurements j := by
    rw [Sys.entry, setHost_self, receive_st]
  refine (after _).trans ?_
  rw [processed_of_found found]
  cases decided : ((c.program r).doRecv k (.message d.bytes d.src cmsgs) (s.host r).loop.st).outcome with
  | none => rfl
  | some returned =>
    obtain ⟨h, own, written⟩ := take_of_outcome whole decided
    rw [own]
    exact entry_take written j

/-- A step writes the half it processes, and nothing else. -/
theorem entry_step (sound : s.Sound) (taken : s.step l = some t) (k : Fin (c.program r).cap) :
    t.entry r k = (s.processed r l).toList.foldl (P2pdelay.write k) (s.entry r k) := by
  rcases loop_of_step taken r with ⟨same, none⟩ | ⟨i, k', cmsgs, rfl⟩ | ⟨rfl, rfl⟩
  · rw [none, Sys.entry, same]
    rfl
  · exact entry_deliver sound taken k
  · obtain ⟨x, -, -, rfl⟩ := step_resume.mp taken
    rw [Sys.entry, setHost_self]
    rfl

theorem entry_of_run (sound : (∃ todo stage, s.Asks todo stage) ∧ s.Sound) (run : Run Sys.step Any s ls t)
    (k : Fin (c.program r).cap) : t.entry r k = (s.halves r ls).foldl (P2pdelay.write k) (s.entry r k) := by
  induction ls generalizing s with
  | nil =>
    obtain rfl : s = t := run
    rfl
  | cons l ls ih =>
    obtain ⟨-, u, taken, rest⟩ := run
    obtain ⟨⟨todo, stage, asks⟩, sound⟩ := sound
    rw [halves_cons taken, List.foldl_append, ← entry_step sound taken k]
    exact ih ⟨asks_step asks taken, sound_step asks sound taken⟩ rest

/-! ### After the loop -/

theorem stopped_step (sound : s.Sound) (stopped : (s.host r).loop.status ≠ .running) (taken : s.step l = some t) :
    s.processed r l = none ∧ (t.host r).loop.status ≠ .running := by
  rcases loop_of_step taken r with ⟨same, none⟩ | ⟨i, k, cmsgs, rfl⟩ | ⟨rfl, rfl⟩
  · rw [same]
    exact ⟨none, stopped⟩
  · obtain ⟨d, nic, -, -, ⟨-, waits⟩, -⟩ := step_deliver.mp taken
    simp only [Host.waits, Bool.and_eq_true, decide_eq_true_eq] at waits
    exact absurd waits.1.2 stopped
  · obtain ⟨x, calls, -, -⟩ := step_resume.mp taken
    exact absurd (sound.answers x calls).2 stopped

theorem halves_of_stopped (sound : (∃ todo stage, s.Asks todo stage) ∧ s.Sound)
    (stopped : (s.host r).loop.status ≠ .running) (run : Run Sys.step Any s ls t) : s.halves r ls = [] := by
  induction ls generalizing s with
  | nil => rfl
  | cons l ls ih =>
    obtain ⟨-, u, taken, rest⟩ := run
    obtain ⟨⟨todo, stage, asks⟩, sound⟩ := sound
    obtain ⟨none, stopped⟩ := stopped_step sound stopped taken
    rw [halves_cons taken, none]
    exact ih ⟨asks_step asks taken, sound_step asks sound taken⟩ stopped rest

/-! ### The follow-ups the slave processes -/

theorem stamp_of_processed (sound : s.Sound) (taken : s.step l = some t) {k : Nat} {v : BitVec 64}
    (own : s.processed .slave l = some (.followUp k v)) :
    ∃ u, s.Requested (BitVec.ofNat 32 k) u ∧ v = u.nanos := by
  rcases loop_of_step taken .slave with ⟨-, none⟩ | ⟨i, stack, cmsgs, rfl⟩ | ⟨rfl, -⟩
  · cases none.symm.trans own
  · obtain ⟨d, nic, found, -, ⟨dst, -⟩, -⟩ := step_deliver.mp taken
    rw [processed_of_found found] at own
    split at own
    · obtain ⟨bytes, src, cmsgs', same, -, arm⟩ := half_eq_some own
      obtain ⟨rfl, -, -⟩ := Recvmsg.message.inj same
      rcases arm with ⟨-, ts, -, absurd⟩ | ⟨type, same⟩
      · cases absurd
      · obtain ⟨rfl, rfl⟩ := Half.followUp.inj same
        obtain ⟨u, requested, time⟩ := ((sound.net d (List.mem_of_getElem? found)).2 dst).2 type
        rw [BitVec.ofNat_toNat, BitVec.setWidth_eq]
        exact ⟨u, requested, time⟩
    · cases own
  · cases own

/-- Every follow-up the slave has processed carries the time of the only request of its number. -/
theorem stamp_of_run (sound : (∃ todo stage, s.Asks todo stage) ∧ s.Sound) (run : Run Sys.step Any s ls t) {k : Nat}
    {v : BitVec 64} (member : .followUp k v ∈ s.halves .slave ls) :
    ∃ u, t.Requested (BitVec.ofNat 32 k) u ∧ v = u.nanos := by
  induction ls generalizing s with
  | nil => cases member
  | cons l ls ih =>
    obtain ⟨-, u, taken, rest⟩ := run
    obtain ⟨⟨todo, stage, asks⟩, sound⟩ := sound
    rw [halves_cons taken, List.mem_append, Option.mem_toList] at member
    rcases member with now | later
    · obtain ⟨w, requested, time⟩ := stamp_of_processed sound taken now
      exact ⟨w, ((trace_step taken).trans (trace_run rest)).subset requested, time⟩
    · exact ih ⟨asks_step asks taken, sound_step asks sound taken⟩ rest later

/-! ### What an entry holds -/

/-- An entry keeps the times of the last event and of the last follow-up processed, its send time at
the slave from the first follow-up on. -/
theorem last_datagram_counts (var : Role → Int) (ls ls' : List Label) (before : Run Sys.step Any (Sys.start c var) ls s)
    (after : Run Sys.step Any s ls' t) (r : Role) (k : Fin (c.program r).cap) :
    let further := s.halves r ls'
    (t.entry r k).recvTt = ((record further).recv k).getD (s.entry r k).recvTt ∧
      (t.entry r k).sentTt = ((record further).sent k).getD (s.entry r k).sentTt ∧
      ((s.host r).loop.status ≠ .running → further = []) ∧
      (r = .slave → HasFollowUp ((Sys.start c var).halves r ls) k → (t.entry r k).sentTt = (s.entry r k).sentTt) := by
  intro further
  have sound := sound_of_run before
  have written := (entry_of_run sound after k).trans (foldl_write further k (s.entry r k))
  refine ⟨congrArg P2pdelay.recvTt written, congrArg P2pdelay.sentTt written,
    fun stopped => halves_of_stopped sound stopped after, ?_⟩
  rintro rfl followUp
  have nothing : Run Sys.step Any (Sys.start c var) [] (Sys.start c var) := rfl
  have start := sound_of_run nothing
  obtain ⟨v, recorded⟩ := Option.isSome_iff_exists.mp ((sent_isSome _ _).mpr followUp)
  have held : (s.entry .slave k).sentTt = v := by
    rw [entry_of_run start before k, foldl_write, recorded]
    rfl
  rw [written, held]
  dsimp only
  cases again : (record further).sent k with
  | none => rfl
  | some w =>
    obtain ⟨u, requested, rfl⟩ := stamp_of_run start before (mem_of_sent recorded)
    obtain ⟨u', requested', rfl⟩ := stamp_of_run sound after (mem_of_sent again)
    obtain ⟨⟨todo, stage, asks⟩, -⟩ := sound_of_run (run_append.mpr ⟨s, before, after⟩)
    rw [asks.once _ u u' ((trace_run after).subset requested) requested']
    rfl

/-! ### A copy of a request -/

def Config.double : Config := { Config.single with measureNumber := fun _ => 2 }

/-- The network copies DELAY_REQ 0; the slave receives one copy at 9, and its follow-up. -/
def copied : List Label :=
  [.event .master ⟨7, 0⟩ ⟨0, 0⟩ ⟨0, 5⟩, .dup 0, .loopback .master, .loopback .master, .poll .master, .poll .master,
    .followUp .master ⟨0, 0⟩ ⟨0, 90⟩, reception .slave ⟨0, 9⟩,
    .deliver .slave 1 .cleared [⟨solSocket, soTimestamping, 48, [⟨0, 0⟩, ⟨0, 0⟩, ⟨0, 91⟩]⟩]] ++
  iteration .slave ⟨7, 0⟩ ⟨0, 95⟩ ++ [.resume]

theorem run_copied : ∃ s t, Run Sys.step Any (Sys.start .double fun _ => 1) copied s ∧
    Run Sys.step Any s [reception .slave ⟨0, 99⟩] t ∧
    s.entry .slave ⟨0, by decide⟩ = ⟨5, 9⟩ ∧ t.entry .slave ⟨0, by decide⟩ = ⟨5, 99⟩ := by
  obtain ⟨s, run, seen⟩ := run_of_exec Sys.step Any (Sys.start .double fun _ => 1) copied
    (fun s => (s.entry .slave ⟨0, by decide⟩,
      (exec Sys.step Any s [reception .slave ⟨0, 99⟩]).map fun t : Sys .double => t.entry .slave ⟨0, by decide⟩))
    (⟨5, 9⟩, some ⟨5, 99⟩) (by decide +kernel)
  obtain ⟨entry, later⟩ := Prod.mk.inj seen
  obtain ⟨t, taken, entry'⟩ := Option.map_eq_some_iff.mp later
  exact ⟨s, t, run, exec_eq_some.mp taken, entry, entry'⟩

theorem processed_copied : HasEvent ((Sys.start .double fun _ => 1).halves .slave copied) 0 ∧
    HasFollowUp ((Sys.start .double fun _ => 1).halves .slave copied) 0 := by
  rw [← recv_isSome, ← sent_isSome]
  decide +kernel

/-- Event 0 and follow-up 0 have been processed, and the other copy of event 0 moves the receive time
from 9 to 99. -/
theorem complete_measurement_changes : ∃ s t, Run Sys.step Any (Sys.start .double fun _ => 1) copied s ∧
    Run Sys.step Any s [reception .slave ⟨0, 99⟩] t ∧
    HasEvent ((Sys.start .double fun _ => 1).halves .slave copied) 0 ∧
    HasFollowUp ((Sys.start .double fun _ => 1).halves .slave copied) 0 ∧
    s.entry .slave ⟨0, by decide⟩ = ⟨5, 9⟩ ∧ t.entry .slave ⟨0, by decide⟩ = ⟨5, 99⟩ := by
  obtain ⟨s, t, before, after, entry, entry'⟩ := run_copied
  exact ⟨s, t, before, after, processed_copied.1, processed_copied.2, entry, entry'⟩

theorem last_datagram_counts_copied : ∃ s t, Run Sys.step Any (Sys.start .double fun _ => 1) copied s ∧
    Run Sys.step Any s [reception .slave ⟨0, 99⟩] t ∧
    (t.entry .slave ⟨0, by decide⟩).sentTt = (s.entry .slave ⟨0, by decide⟩).sentTt := by
  obtain ⟨s, t, before, after, -⟩ := run_copied
  obtain ⟨-, -, -, final⟩ := last_datagram_counts _ _ _ before after .slave ⟨0, by decide⟩
  exact ⟨s, t, before, after, final rfl processed_copied.2⟩

end Mdelay
