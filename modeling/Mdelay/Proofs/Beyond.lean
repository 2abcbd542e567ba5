import Mdelay.Model.Beyond
import Mdelay.Proofs.LoopExit

/-!
# Loops that an access outside the array does not stop

Where nothing outside an array is accessed, both loops of a program do the same. Otherwise the one that goes
on counts as it would, and gets no memory that the program did not have.
-/

namespace Mdelay
open ByteOrder Overrun Transition

variable {cap : Nat} {e : Endian} {k : Stack} {r : Recvmsg} {behind : Timespec} {around around' : Entries}

/-! ### Nothing outside accessed -/

theorem poke_of_modify {m m' : Measurements cap} {pktseq : Int} {f : P2pdelay → P2pdelay}
    (written : m.modify pktseq f = some m') (around : Entries) : m.poke around pktseq f = some (m', around) := by
  unfold Measurements.modify at written
  split at written
  · rename_i inside
    rw [Measurements.poke, write, dif_pos (show Inside cap pktseq from inside)]
    obtain rfl := Option.some.inj written
    rfl
  · cases written

theorem entryOf_of_bind {ts : Option (List Timespec)} {i : Nat} {t : Timespec} (there : ts.bind (·[i]?) = some t)
    (behind : Timespec) : entryOf ts i behind = some t := by
  obtain ⟨ts, rfl, entry⟩ := Option.bind_eq_some_iff.mp there
  rw [entryOf, Option.map_some, entry]
  rfl

def DoRecv.map {σ τ : Type} (f : σ → τ) : DoRecv σ → DoRecv τ
  | .returned got st => .returned got (f st)
  | .sending got st call => .sending got (f st) call
  | .exited => .exited
  | .faulted => .faulted

theorem written_of_not_faulted {σ : Type} {got : Int} {st : Option σ} (alive : DoRecv.written got st ≠ .faulted) :
    ∃ st', st = some st' := by
  cases st with
  | none => exact absurd rfl alive
  | some st' => exact ⟨st', rfl⟩

theorem Master.doRecvOn_eq {m : Measurements Master.entries} (alive : Master.doRecv e k r m ≠ .faulted)
    (behind : Timespec) (around : Entries) :
    Master.doRecvOn e k r behind m around = (Master.doRecv e k r m).map fun m => (m, around) := by
  unfold Master.doRecv at alive ⊢
  unfold Master.doRecvOn
  by_cases empty : r.got = 0
  · rw [if_pos empty, if_pos empty]
    rfl
  · rw [if_neg empty] at alive
    rw [if_neg empty, if_neg empty]
    dsimp only at alive ⊢
    cases type : PktType.ofCode (Mdelayhdr.ofBytes e (r.buffer k)).type with
    | none => rfl
    | some type' =>
      rw [type] at alive
      cases type' with
      | delayResp =>
        cases there : (retrieveTimestamp (r.control k)).bind (·[2]?) with
        | none =>
          rw [there] at alive
          exact absurd rfl alive
        | some ts =>
          rw [there] at alive
          obtain ⟨m', written⟩ := written_of_not_faulted alive
          rw [entryOf_of_bind there]
          dsimp only
          rw [Measurements.pokeRecv, poke_of_modify written, written]
          rfl
      | delayRespFollowUp =>
        obtain ⟨m', written⟩ := written_of_not_faulted alive
        dsimp only
        rw [Measurements.pokeSent, poke_of_modify written, written]
        rfl
      | delayReq | delayReqFollowUp => rfl

theorem Slave.doRecvOn_eq {s : Slave.State cap} (alive : Slave.doRecv e k r s ≠ .faulted)
    (behind : Timespec) (around : Entries) :
    Slave.doRecvOn e k r behind s around = (Slave.doRecv e k r s).map fun s => (s, around) := by
  unfold Slave.doRecv at alive ⊢
  unfold Slave.doRecvOn
  by_cases empty : r.got = 0
  · rw [if_pos empty, if_pos empty]
    rfl
  · rw [if_neg empty] at alive
    rw [if_neg empty, if_neg empty]
    dsimp only at alive ⊢
    cases recorded : s.recordPeer e (r.hostAddress k) with
    | none =>
      rw [recorded] at alive
      exact absurd rfl alive
    | some peer =>
      obtain ⟨u, host⟩ := peer
      rw [recorded] at alive
      dsimp only at alive ⊢
      cases type : PktType.ofCode (Mdelayhdr.ofBytes e (r.buffer k)).type with
      | none => rfl
      | some type' =>
        rw [type] at alive
        cases type' with
        | delayReq =>
          cases there : (retrieveTimestamp (r.control k)).bind (·[2]?) with
          | none =>
            rw [there] at alive
            exact absurd rfl alive
          | some ts =>
            rw [there] at alive
            obtain ⟨s', written⟩ := written_of_not_faulted alive
            obtain ⟨m, modified, rfl⟩ := Option.map_eq_some_iff.mp written
            rw [entryOf_of_bind there]
            dsimp only
            rw [Measurements.pokeRecv, poke_of_modify modified, modified]
            rfl
        | delayReqFollowUp =>
          dsimp only at alive ⊢
          cases modified : u.meas.count.setSent (ntohl e (Mdelayhdr.ofBytes e (r.buffer k)).seq).toNat
              (ntoh64 e (Mdelayhdr.ofBytes e (r.buffer k)).t2) with
          | none =>
            rw [modified] at alive
            exact absurd rfl alive
          | some m =>
            rw [Measurements.pokeSent, poke_of_modify modified]
            rfl
        | delayResp | delayRespFollowUp => rfl

theorem doRecvOn_eq {role : Role} {measureNumber : BitVec 32} {st : (role.program e measureNumber).State}
    (alive : (role.program e measureNumber).doRecv k r st ≠ .faulted) (behind : Timespec) (around : Entries) :
    role.doRecvOn e measureNumber k r behind st around =
      ((role.program e measureNumber).doRecv k r st).map fun st => (st, around) := by
  cases role with
  | master => exact Master.doRecvOn_eq alive behind around
  | slave => exact Slave.doRecvOn_eq alive behind around

theorem Master.of_outcomeOn {m m' : Measurements Master.entries} {got : Int}
    (outcome : (Master.doRecvOn e k r behind m around).outcome = some (got, m', around')) :
    let h := decode e (r.buffer k)
    r.got = 0 ∧ m' = m ∧ around' = around ∨
      (h.type = PktType.delayResp.code ∧ ∃ t, m.pokeRecv around h.seq.toInt t = some (m', around')) ∨
      h.type = PktType.delayRespFollowUp.code ∧ m.count.pokeSent around h.seq.toInt h.t4 = some (m', around') := by
  intro h
  by_cases empty : r.got = 0
  · rw [Master.doRecvOn, if_pos empty] at outcome
    obtain ⟨rfl, rfl⟩ := Prod.mk.inj (Prod.mk.inj (Option.some.inj outcome)).2
    exact Or.inl ⟨empty, rfl, rfl⟩
  · rw [Master.doRecvOn, if_neg empty] at outcome
    dsimp only at outcome
    split at outcome
    · rename_i type
      split at outcome
      · exact Or.inr (Or.inl ⟨PktType.ofCode_eq_some.mp type, _, outcome_written outcome⟩)
      · cases outcome
    · rename_i type
      exact Or.inr (Or.inr ⟨PktType.ofCode_eq_some.mp type, outcome_written outcome⟩)
    · cases outcome

theorem Slave.of_outcomeOn {s s' : Slave.State cap} {got : Int}
    (outcome : (Slave.doRecvOn e k r behind s around).outcome = some (got, s', around')) :
    let h := decode e (r.buffer k)
    r.got = 0 ∧ s' = s ∧ around' = around ∨
      ∃ u host m, s.recordPeer e (r.hostAddress k) = some (u, host) ∧ s' = { u with meas := m } ∧
        ((h.type = PktType.delayReq.code ∧ ∃ t, u.meas.pokeRecv around h.seq.toNat t = some (m, around')) ∨
          h.type = PktType.delayReqFollowUp.code ∧ u.meas.count.pokeSent around h.seq.toNat h.t2 = some (m, around')) := by
  intro h
  by_cases empty : r.got = 0
  · rw [Slave.doRecvOn, if_pos empty] at outcome
    obtain ⟨rfl, rfl⟩ := Prod.mk.inj (Prod.mk.inj (Option.some.inj outcome)).2
    exact Or.inl ⟨empty, rfl, rfl⟩
  · rw [Slave.doRecvOn, if_neg empty] at outcome
    dsimp only at outcome
    cases recorded : s.recordPeer e (r.hostAddress k) with
    | none =>
      rw [recorded] at outcome
      cases outcome
    | some peer =>
      obtain ⟨u, host⟩ := peer
      rw [recorded] at outcome
      dsimp only at outcome
      split at outcome
      · rename_i type
        split at outcome
        · obtain ⟨⟨m, around''⟩, written, same⟩ := Option.map_eq_some_iff.mp (outcome_written outcome)
          obtain ⟨rfl, rfl⟩ := Prod.mk.inj same
          exact Or.inr ⟨u, host, m, rfl, rfl, Or.inl ⟨PktType.ofCode_eq_some.mp type, _, written⟩⟩
        · cases outcome
      · rename_i type
        split at outcome
        · rename_i m around'' written
          obtain ⟨-, same⟩ := Prod.mk.inj (Option.some.inj outcome)
          obtain ⟨rfl, rfl⟩ := Prod.mk.inj same
          exact Or.inr ⟨u, host, m, rfl, rfl, Or.inr ⟨PktType.ofCode_eq_some.mp type, written⟩⟩
        · cases outcome
      · cases outcome

theorem Slave.recordPeer_meas {s s' : Slave.State cap} {src host : SockaddrIn}
    (recorded : s.recordPeer e src = some (s', host)) : s'.meas = s.meas := by
  unfold Slave.State.recordPeer at recorded
  split at recorded
  · obtain ⟨rfl, -⟩ := Prod.mk.inj (Option.some.inj recorded)
    rfl
  · split at recorded
    · obtain ⟨rfl, -⟩ := Prod.mk.inj (Option.some.inj recorded)
      rfl
    · cases recorded

/-- A turn makes the test after a call that returns, or ends the run where it was. -/
theorem turnOn_cases {role : Role} {measureNumber : BitVec 32} {l l' : (role.program e measureNumber).LoopOn}
    {input : (Stack × Recvmsg) × Timespec} (turned : role.turnOn e measureNumber l input = some l') :
    l.loop.status = .running ∧
      ((∃ got st around, (role.doRecvOn e measureNumber input.1.1 input.1.2 input.2 l.loop.st l.around).outcome =
          some (got, st, around) ∧ l' = ⟨(role.program e measureNumber).afterRecv l.loop got st, around⟩) ∨
        l'.loop.st = l.loop.st ∧ l'.around = l.around ∧ (l'.loop.status = .exited ∨ l'.loop.status = .faulted)) := by
  unfold Role.turnOn at turned
  split at turned
  · rename_i running
    refine ⟨running, ?_⟩
    cases outcome : role.doRecvOn e measureNumber input.1.1 input.1.2 input.2 l.loop.st l.around with
    | returned got st | sending got st call =>
      rw [outcome] at turned
      obtain rfl := Option.some.inj turned
      exact Or.inl ⟨got, st.1, st.2, rfl, rfl⟩
    | exited =>
      rw [outcome] at turned
      obtain rfl := Option.some.inj turned
      exact Or.inr ⟨rfl, rfl, Or.inl rfl⟩
    | faulted =>
      rw [outcome] at turned
      obtain rfl := Option.some.inj turned
      exact Or.inr ⟨rfl, rfl, Or.inr rfl⟩
  · cases turned

theorem resultsOn_of_zero {p : Program} {l : p.LoopOn} (allocated : p.allocated = true) (zero : p.total l.loop.st = 0) :
    p.resultsOn l = some [] := by
  rw [Program.resultsOn, if_pos allocated, zero]
  rfl

/-- With no entries and a count of 1, the file is what the place behind the array makes it. -/
theorem resultsOn_of_one {p : Program} {l : p.LoopOn} (allocated : p.allocated = true) (empty : p.cap = 0)
    (one : p.total l.loop.st = 1) : p.resultsOn l = (l.around 0).map fun d => fprintfLu d.delay := by
  have outside : ¬ Inside p.cap ((0 : Nat) : Int) := by
    rw [inside_natCast, empty]
    exact Nat.not_lt_zero 0
  have range : List.range (1 : BitVec 64).toNat = [0] := rfl
  rw [Program.resultsOn, if_pos allocated, one, range, List.mapM_cons, read_of_outside outside]
  show (((l.around 0).map _).bind _).map _ = _
  cases l.around 0 with
  | none => rfl
  | some d => exact congrArg some (List.append_nil _)

end Mdelay
