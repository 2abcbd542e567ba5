import Mdelay.Proofs.Index

/-!
# What retrieve_timestamp points to

The scan remembers the last message of either of two types. Where the last SO_TIMESTAMPING message
has none of the other type behind it and is whole, its array of three times is what is returned.
-/

namespace Mdelay
open ByteOrder

variable {cap : Nat} {e : Endian} {control : List Cmsghdr} {i : Nat}

/-! ### The pointer -/

/-- `retrieve_timestamp` with the position of the message in place of the address of its data. -/
def retrieveIndex (control : List Cmsghdr) : Option Nat :=
  control.zipIdx.foldl (fun ts (cmsg, i) =>
    if cmsg.cmsgLevel ≠ solSocket then ts
    else if cmsg.cmsgType = soTimestampns then some i
    else if cmsg.cmsgType = soTimestamping then some i
    else ts) none

def Cmsghdr.IsTimestamping (m : Cmsghdr) : Prop := m.cmsgLevel = solSocket ∧ m.cmsgType = soTimestamping

def Cmsghdr.IsTimestampns (m : Cmsghdr) : Prop := m.cmsgLevel = solSocket ∧ m.cmsgType = soTimestampns

/-- A message that changes what the scan remembers. -/
def Cmsghdr.Timed (m : Cmsghdr) : Prop := m.IsTimestamping ∨ m.IsTimestampns

instance (m : Cmsghdr) : Decidable m.Timed := inferInstanceAs (Decidable (_ ∧ _ ∨ _ ∧ _))

theorem scan_eq {α : Type} (m : Cmsghdr) (before : Option α) (found : α) :
    (if m.cmsgLevel ≠ solSocket then before
      else if m.cmsgType = soTimestampns then some found
      else if m.cmsgType = soTimestamping then some found
      else before) = if m.Timed then some found else before := by
  unfold Cmsghdr.Timed Cmsghdr.IsTimestamping Cmsghdr.IsTimestampns
  by_cases level : m.cmsgLevel = solSocket
  · by_cases ns : m.cmsgType = soTimestampns
    · simp [level, ns]
    · simp [level, ns]
  · simp [level]

theorem retrieveIndex_snoc (control : List Cmsghdr) (m : Cmsghdr) :
    retrieveIndex (control ++ [m]) = if m.Timed then some control.length else retrieveIndex control := by
  rw [← scan_eq, retrieveIndex, List.zipIdx_append, List.foldl_append, Nat.zero_add]
  rfl

theorem retrieveTimestamp_snoc (control : List Cmsghdr) (m : Cmsghdr) :
    retrieveTimestamp (control ++ [m]) = if m.Timed then some m.data else retrieveTimestamp control := by
  rw [← scan_eq, retrieveTimestamp, List.foldl_append]
  rfl

theorem snoc_split {pre post : List Cmsghdr} {m last : Cmsghdr} (split : control ++ [last] = pre ++ m :: post) :
    (post = [] ∧ control = pre ∧ last = m) ∨ ∃ rest, post = rest ++ [last] ∧ control = pre ++ m :: rest := by
  rcases List.eq_nil_or_concat post with rfl | ⟨rest, m', rfl⟩
  · obtain ⟨same, tail⟩ := List.append_inj' split rfl
    exact Or.inl ⟨rfl, same, List.singleton_inj.mp tail⟩
  · have whole : control ++ [last] = (pre ++ m :: rest) ++ [m'] := by
      rw [split, List.concat_eq_append, List.append_assoc, List.cons_append]
    obtain ⟨same, tail⟩ := List.append_inj' whole rfl
    exact Or.inr ⟨rest, by rw [List.singleton_inj.mp tail, List.concat_eq_append], same⟩

/-- The message found, and nothing behind it that the scan would have taken instead. -/
theorem retrieveIndex_eq_some : retrieveIndex control = some i ↔
    ∃ pre m post, control = pre ++ m :: post ∧ pre.length = i ∧ m.Timed ∧ ∀ m' ∈ post, ¬ m'.Timed := by
  induction control using List.reverseRecOn with
  | nil =>
    refine iff_of_false (fun absurd => by cases absurd) ?_
    rintro ⟨pre, m, post, split, -⟩
    exact List.append_ne_nil_of_right_ne_nil pre (List.cons_ne_nil m post) split.symm
  | append_singleton control last ih =>
    rw [retrieveIndex_snoc]
    by_cases timed : last.Timed
    · rw [if_pos timed]
      constructor
      · intro found
        exact ⟨control, last, [], rfl, Option.some.inj found, timed, fun m' member => by cases member⟩
      · rintro ⟨pre, m, post, split, rfl, -, quiet⟩
        rcases snoc_split split with ⟨-, rfl, -⟩ | ⟨rest, rfl, -⟩
        · rfl
        · exact absurd timed (quiet last (List.mem_append_right _ (List.mem_singleton_self last)))
    · rw [if_neg timed, ih]
      constructor
      · rintro ⟨pre, m, post, rfl, length, found, quiet⟩
        refine ⟨pre, m, post ++ [last], by rw [List.append_assoc, List.cons_append], length, found, ?_⟩
        exact List.forall_mem_append.mpr ⟨quiet, List.forall_mem_singleton.mpr timed⟩
      · rintro ⟨pre, m, post, split, length, found, quiet⟩
        rcases snoc_split split with ⟨-, -, rfl⟩ | ⟨rest, rfl, rfl⟩
        · exact absurd found timed
        · exact ⟨pre, m, rest, rfl, length, found, (List.forall_mem_append.mp quiet).1⟩

/-- The data `retrieve_timestamp` returns are those of the message found. -/
theorem retrieveTimestamp_eq (control : List Cmsghdr) :
    retrieveTimestamp control = (retrieveIndex control).bind fun i => (control[i]?).map Cmsghdr.data := by
  induction control using List.reverseRecOn with
  | nil => rfl
  | append_singleton control last ih =>
    rw [retrieveTimestamp_snoc, retrieveIndex_snoc]
    by_cases timed : last.Timed
    · rw [if_pos timed, if_pos timed, Option.bind_some, List.getElem?_concat_length]
      rfl
    · rw [if_neg timed, if_neg timed, ih]
      cases found : retrieveIndex control with
      | none => rfl
      | some i =>
        obtain ⟨pre, m, post, rfl, rfl, -⟩ := retrieveIndex_eq_some.mp found
        have inside : pre.length < (pre ++ m :: post).length := by
          rw [List.length_append, List.length_cons]
          omega
        rw [Option.bind_some, Option.bind_some, List.getElem?_append_left inside]

/-! ### The right array -/

/-- The result is not NULL, it is the array of three times of a SO_TIMESTAMPING message, there is no such message
behind, and the entry read is one of this array. -/
def PointsRight (entry : Nat) (control : List Cmsghdr) : Prop :=
  ∃ i m ts, retrieveIndex control = some i ∧ control[i]? = some m ∧ retrieveTimestamp control = some m.data ∧
    m.IsTimestamping ∧ m.data.length = 3 ∧ m.data[entry]? = some ts ∧
    ∀ j m', i < j → control[j]? = some m' → ¬ m'.IsTimestamping

/-- Some message is of type SO_TIMESTAMPING, the last such message holds three times, and behind it there is none of
type SO_TIMESTAMPNS. -/
def TimestampingLast (control : List Cmsghdr) : Prop :=
  ∃ pre m post, control = pre ++ m :: post ∧ m.IsTimestamping ∧ m.data.length = 3 ∧
    ∀ m' ∈ post, ¬ m'.IsTimestamping ∧ ¬ m'.IsTimestampns

theorem pointsRight_iff {entry : Nat} (inside : entry < 3) : PointsRight entry control ↔ TimestampingLast control := by
  constructor
  · rintro ⟨i, m, ts, found, here, -, timestamping, three, -⟩
    obtain ⟨pre, m', post, rfl, rfl, -, quiet⟩ := retrieveIndex_eq_some.mp found
    rw [List.getElem?_append_right (Nat.le_refl _), Nat.sub_self] at here
    obtain rfl := Option.some.inj here
    exact ⟨pre, m', post, rfl, timestamping, three, fun m member => not_or.mp (quiet m member)⟩
  · rintro ⟨pre, m, post, rfl, timestamping, three, quiet⟩
    have found : retrieveIndex (pre ++ m :: post) = some pre.length :=
      retrieveIndex_eq_some.mpr ⟨pre, m, post, rfl, rfl, Or.inl timestamping, fun m' member => not_or.mpr (quiet m' member)⟩
    have here : (pre ++ m :: post)[pre.length]? = some m := by
      rw [List.getElem?_append_right (Nat.le_refl _), Nat.sub_self]
      rfl
    obtain ⟨ts, read⟩ : ∃ ts, m.data[entry]? = some ts :=
      ⟨_, List.getElem?_eq_getElem (show entry < m.data.length by omega)⟩
    refine ⟨pre.length, m, ts, found, here, ?_, timestamping, three, read, fun j m' behind at_j => ?_⟩
    · rw [retrieveTimestamp_eq, found, Option.bind_some, here]
      rfl
    · obtain ⟨d, rfl⟩ := Nat.exists_eq_add_of_lt behind
      rw [List.getElem?_append_right (by omega)] at at_j
      have offset : pre.length + d + 1 - pre.length = d + 1 := by omega
      rw [offset, List.getElem?_cons_succ] at at_j
      exact (quiet m' (List.mem_of_getElem? at_j)).1

/-! ### Where it is read -/

/-- The control messages among which the call of `retrieve_timestamp` has searched whose entry 2 the
master's `do_recv` reads, if it reads one. -/
def Master.scanned (e : Endian) (k : Stack) (r : Recvmsg) : Option (List Cmsghdr) :=
  if r.got ≠ 0 ∧ PktType.ofCode (Mdelayhdr.ofBytes e (r.buffer k)).type = some .delayResp then some (r.control k)
  else none

def Slave.scanned (e : Endian) (k : Stack) (r : Recvmsg) (s : Slave.State cap) : Option (List Cmsghdr) :=
  if r.got ≠ 0 ∧ (s.recordPeer e (r.hostAddress k)).isSome = true ∧
      PktType.ofCode (Mdelayhdr.ofBytes e (r.buffer k)).type = some .delayReq then some (r.control k)
  else none

/-- Entry 0 is read after the first read of an iteration, if it did not fail, and entry 2 after the
second, from the control messages of the first if the second failed. -/
def Sender.scanned (got : ErrqRead) (x : Sender) : Option (List Cmsghdr) :=
  match x.pc, got with
  | .kernelRead, .message cmsgs => some (x.msg.recv cmsgs).control
  | .nicRead, .message cmsgs => some (x.msg.recv cmsgs).control
  | .nicRead, .failure => some x.msg.control
  | _, _ => none

/-- A place that reads an entry of what `retrieve_timestamp` returned, in a state of its function. -/
inductive Site where
  | master (e : Endian) (k : Stack) (r : Recvmsg)
  | slave (e : Endian) (k : Stack) (r : Recvmsg) {cap : Nat} (s : Slave.State cap)
  | sender (got : ErrqRead) (x : Sender)

def Site.scanned : Site → Option (List Cmsghdr)
  | .master e k r => Master.scanned e k r
  | .slave e k r s => Slave.scanned e k r s
  | .sender got x => x.scanned got

/-- The number of the entry that the place reads. -/
def Site.entry : Site → Nat
  | .master .. | .slave .. => 2
  | .sender _ x => if x.pc = .kernelRead then 0 else 2

/-- What the place does with the entry it reads out of `control`; without that entry it accesses other memory. -/
def Site.Uses (site : Site) (control : List Cmsghdr) : Prop :=
  let ts := (retrieveTimestamp control).bind (·[site.entry]?)
  match site with
  | .master e k r => ∀ m : Measurements Master.entries, Master.doRecv e k r m =
      match ts with
      | some ts => .written r.got (m.setRecv (Role.master.pktseq e (r.buffer k)) ts.nanos)
      | none => .faulted
  | .slave e k r s => ∃ s' host, s.recordPeer e (r.hostAddress k) = some (s', host) ∧ Slave.doRecv e k r s =
      match ts with
      | some ts => .written r.got
          ((s'.meas.setRecv (Role.slave.pktseq e (r.buffer k)) ts.nanos).map fun m => { s' with meas := m })
      | none => .faulted
  | .sender got x => x.readErrq got =
      match ts with
      | some ts =>
        if x.pc = .kernelRead then { x with msg := got.msg x.msg, ts0 := ts, pc := .nicRead }
        else { x with msg := got.msg x.msg, ts2 := ts, pc := .followUp }
      | none => { x with msg := got.msg x.msg, pc := .faulted }

theorem Master.uses {k : Stack} {r : Recvmsg} (scanned : Master.scanned e k r = some control) :
    (Site.master e k r).Uses control := by
  intro m
  unfold Master.scanned at scanned
  split at scanned
  · rename_i reads
    obtain rfl := Option.some.inj scanned
    unfold Master.doRecv
    rw [if_neg reads.1]
    dsimp only
    rw [reads.2]
    rfl
  · cases scanned

theorem Slave.uses {k : Stack} {r : Recvmsg} {s : Slave.State cap}
    (scanned : Slave.scanned e k r s = some control) : (Site.slave e k r s).Uses control := by
  unfold Slave.scanned at scanned
  split at scanned
  · rename_i reads
    obtain rfl := Option.some.inj scanned
    obtain ⟨some, peer, type⟩ := reads
    obtain ⟨⟨s', host⟩, recorded⟩ := Option.isSome_iff_exists.mp peer
    refine ⟨s', host, recorded, ?_⟩
    unfold Slave.doRecv
    rw [if_neg some]
    dsimp only
    rw [recorded]
    dsimp only
    rw [type]
    rfl
  · cases scanned

theorem Sender.uses {x : Sender} {got : ErrqRead} (scanned : x.scanned got = some control) :
    (Site.sender got x).Uses control := by
  unfold Sender.scanned at scanned
  unfold Site.Uses Site.entry
  split at scanned
  · rename_i cmsgs pc
    obtain rfl := Option.some.inj scanned
    cases found : (retrieveTimestamp (x.msg.recv cmsgs).control).bind (·[0]?) <;>
      simp only [Sender.readErrq, pc, ErrqRead.msg, if_true, found]
  · rename_i cmsgs pc
    obtain rfl := Option.some.inj scanned
    cases found : (retrieveTimestamp (x.msg.recv cmsgs).control).bind (·[2]?) <;>
      simp only [Sender.readErrq, pc, ErrqRead.msg, reduceCtorEq, if_false, found]
  · rename_i pc
    obtain rfl := Option.some.inj scanned
    cases found : (retrieveTimestamp x.msg.control).bind (·[2]?) <;>
      simp only [Sender.readErrq, pc, ErrqRead.msg, reduceCtorEq, if_false, found]
  · cases scanned

/-! ### Where it is not -/

/-- The place does the same whatever the control messages are, or keeps the times it has read before. -/
def Site.Ignores : Site → Prop
  | .master e k r => ∀ k' r' (m : Measurements Master.entries), r'.got = r.got → r'.buffer k' = r.buffer k →
      Master.doRecv e k' r' m = Master.doRecv e k r m
  | .slave e k r s => ∀ k' r', r'.got = r.got → r'.buffer k' = r.buffer k → r'.hostAddress k' = r.hostAddress k →
      Slave.doRecv e k' r' s = Slave.doRecv e k r s
  | .sender got x => (x.readErrq got).ts0 = x.ts0 ∧ (x.readErrq got).ts2 = x.ts2

theorem Master.ignores {k : Stack} {r : Recvmsg} (unscanned : Master.scanned e k r = none) :
    (Site.master e k r).Ignores := by
  intro k' r' m got buffer
  unfold Master.scanned at unscanned
  unfold Master.doRecv
  rw [got, buffer]
  by_cases empty : r.got = 0
  · rw [if_pos empty, if_pos empty]
  · rw [if_neg empty, if_neg empty]
    dsimp only
    split
    · rename_i event
      rw [if_pos ⟨empty, event⟩] at unscanned
      cases unscanned
    · rfl
    · rfl

theorem Slave.ignores {k : Stack} {r : Recvmsg} {s : Slave.State cap}
    (unscanned : Slave.scanned e k r s = none) : (Site.slave e k r s).Ignores := by
  intro k' r' got buffer host
  unfold Slave.scanned at unscanned
  unfold Slave.doRecv
  rw [got, buffer, host]
  by_cases empty : r.got = 0
  · rw [if_pos empty, if_pos empty]
  · rw [if_neg empty, if_neg empty]
    dsimp only
    cases recorded : s.recordPeer e (r.hostAddress k) with
    | none => rfl
    | some peer =>
      dsimp only
      split
      · rename_i event
        rw [if_pos ⟨empty, by rw [recorded]; rfl, event⟩] at unscanned
        cases unscanned
      · rfl
      · rfl

theorem Sender.ignores {x : Sender} {got : ErrqRead} (unscanned : x.scanned got = none) :
    (Site.sender got x).Ignores := by
  show (x.readErrq got).ts0 = x.ts0 ∧ (x.readErrq got).ts2 = x.ts2
  unfold Sender.scanned at unscanned
  cases got with
  | eagain => exact ⟨rfl, rfl⟩
  | message cmsgs =>
    cases pc : x.pc with
    | kernelRead | nicRead =>
      rw [pc] at unscanned
      cases unscanned
    | _ => simp only [Sender.readErrq, pc, Sender.advance, and_self]
  | failure =>
    cases pc : x.pc with
    | nicRead =>
      rw [pc] at unscanned
      cases unscanned
    | _ => simp only [Sender.readErrq, pc, Sender.advance, and_self]

/-! ### Every reading -/

/-- Whenever the place reads an entry, it is one of the array of the last SO_TIMESTAMPING message. -/
def Site.ReadsRight (site : Site) : Prop := ∀ control, site.scanned = some control → PointsRight site.entry control

theorem Site.entry_lt (site : Site) : site.entry < 3 := by
  cases site with
  | master | slave => exact (by decide : 2 < 3)
  | sender got x =>
    show (if x.pc = .kernelRead then 0 else 2) < 3
    split <;> omega

/-- A place uses the control messages only for the entry that it reads, and this is read from the right array
exactly when the messages searched hold a SO_TIMESTAMPING message, the last of them holds three times, and no
SO_TIMESTAMPNS message is behind it. -/
theorem timestamp_array_iff (site : Site) :
    (∀ control, site.scanned = some control → site.Uses control) ∧ (site.scanned = none → site.Ignores) ∧
      (site.ReadsRight ↔ ∀ control, site.scanned = some control → TimestampingLast control) := by
  refine ⟨fun control scanned => ?_, fun unscanned => ?_, forall₂_congr fun _ _ => pointsRight_iff site.entry_lt⟩
  · cases site with
    | master e k r => exact Master.uses scanned
    | slave e k r s => exact Slave.uses scanned
    | sender got x => exact Sender.uses scanned
  · cases site with
    | master e k r => exact Master.ignores unscanned
    | slave e k r s => exact Slave.ignores unscanned
    | sender got x => exact Sender.ignores unscanned

/-- The sender at its read of a NIC timestamp, with room for 48 bytes of control data. -/
def narrowed : Sender :=
  { sendUdpPacketsTimestamp ⟨0x0200007f, 2⟩ .delayReq payloadSize 2 0 with msg := ⟨[], 48⟩, pc := .nicRead }

/-- A DELAY_RESP without a timestamp, on which the master reads through NULL, one with a SO_TIMESTAMPNS message
behind its SO_TIMESTAMPING message, and a NIC timestamp that the sender has no room for. -/
theorem timestamp_array_wrong :
    let resp := (Role.slave.eventHeader 0 7).message payloadSize 0x43
    let bare := Recvmsg.message resp ⟨2, 2⟩ []
    let mixed := Recvmsg.message resp ⟨2, 2⟩
      [⟨solSocket, soTimestamping, 48, [⟨0, 0⟩, ⟨0, 0⟩, ⟨0, 9⟩]⟩, ⟨solSocket, soTimestampns, 16, [⟨0, 8⟩]⟩]
    let nic := ErrqRead.message [⟨solSocket, soTimestamping, 48, [⟨0, 0⟩, ⟨0, 0⟩, ⟨0, 5⟩]⟩]
    ((Site.master .little .cleared bare).scanned.map retrieveIndex = some none ∧
        ¬ (Site.master .little .cleared bare).ReadsRight) ∧
      ((Site.master .little .cleared mixed).scanned.map retrieveIndex = some (some 1) ∧
        ¬ (Site.master .little .cleared mixed).ReadsRight) ∧
      (Site.sender nic narrowed).scanned.map retrieveTimestamp = some (some [⟨0, 0⟩, ⟨0, 0⟩]) ∧
        ¬ (Site.sender nic narrowed).ReadsRight := by
  intro resp bare mixed nic
  have bareScan : (Site.master .little .cleared bare).scanned = some [] := by decide +kernel
  have mixedScan : (Site.master .little .cleared mixed).scanned =
      some [⟨solSocket, soTimestamping, 48, [⟨0, 0⟩, ⟨0, 0⟩, ⟨0, 9⟩]⟩, ⟨solSocket, soTimestampns, 16, [⟨0, 8⟩]⟩] := by
    decide +kernel
  have cutScan : (Site.sender nic narrowed).scanned = some [⟨solSocket, soTimestamping, 32, [⟨0, 0⟩, ⟨0, 0⟩]⟩] := by
    decide +kernel
  refine ⟨⟨by rw [bareScan]; rfl, fun right => ?_⟩, ⟨by rw [mixedScan]; rfl, fun right => ?_⟩,
    by rw [cutScan]; rfl, fun right => ?_⟩
  · obtain ⟨i, m, ts, found, -⟩ := right _ bareScan
    cases found
  · obtain ⟨i, m, ts, found, here, -, timestamping, -⟩ := right _ mixedScan
    obtain rfl := Option.some.inj found
    obtain rfl := Option.some.inj here
    exact absurd timestamping.2 (by decide)
  · obtain ⟨i, m, ts, found, here, -, -, three, -⟩ := right _ cutScan
    obtain rfl := Option.some.inj found
    obtain rfl := Option.some.inj here
    exact absurd three (by decide)

end Mdelay
