import Mdelay.Proofs.Counter

/-!
# Stored delays

The number printed for a packet is the difference of its two NIC times as an unsigned 64-bit
number. It is the exact difference when the packet was not received before it was sent.
-/

namespace Mdelay
open ByteOrder TwoStep Transition

/-- A normalised, non-negative time whose nanoseconds fit 63 bits. -/
structure Timespec.Valid (ts : Timespec) : Prop where
  sec : 0 ≤ ts.tvSec.toInt
  nsec : 0 ≤ ts.tvNsec.toInt ∧ ts.tvNsec.toInt < 1000000000
  fits : ts.value < 2 ^ 63

theorem Timespec.Valid.value_nonneg {ts : Timespec} (valid : ts.Valid) : 0 ≤ ts.value := by
  have sec := valid.sec
  have nsec := valid.nsec
  rw [Timespec.value]
  omega

theorem Timespec.Valid.toNat_nanos {ts : Timespec} (valid : ts.Valid) : (ts.nanos.toNat : Int) = ts.value := by
  have nonneg := valid.value_nonneg
  have fits := valid.fits
  rw [Timespec.nanos_eq, BitVec.toNat_ofInt]
  omega

theorem toNat_delay {tx rx : Timespec} (sent : tx.Valid) (received : rx.Valid) :
    ((rx.nanos - tx.nanos).toNat : Int) =
      if tx.value ≤ rx.value then rx.value - tx.value else rx.value - tx.value + 2 ^ 64 := by
  have tx_eq := sent.toNat_nanos
  have rx_eq := received.toNat_nanos
  have tx_fits := sent.fits
  have rx_fits := received.fits
  rw [BitVec.toNat_sub]
  split <;> omega

/-- The event `seq` and its follow-up have been processed, each the last of its kind. The event was
received at `rx`; the follow-up is what the peer sends once its NIC has given `tx` for the event. -/
structure Recorded (role : Role) (p : Program) (inputs : List (Stack × Recvmsg)) (seq : BitVec 32)
    (tx rx : Timespec) : Prop where
  event : ∃ pre k user size fill src cmsgs post,
    inputs = pre ++ (k, .message ((role.peer.eventHeader seq user).message size fill) src cmsgs) :: post ∧
      nicTime cmsgs = some rx ∧ (false, seq.toNat) ∉ (p.halves post).map Half.key
  followUp : ∃ pre k sender, ∃ x : Sender, ∃ user bytes src cmsgs post,
    inputs = pre ++ (k, .message bytes src cmsgs) :: post ∧
      x.pkttype = role.peer.pkttype ∧ x.mdelayhdr = (role.peer.eventHeader seq user).toNetwork sender 0 ∧
      x.ts2 = tx ∧ (x.sendFollowUp sender).2 = some bytes ∧
      (true, seq.toNat) ∉ (p.halves post).map Half.key

theorem halves_split (p : Program) (pre post : List (Stack × Recvmsg)) (k : Stack) {r : Recvmsg}
    {h : Half (BitVec 64)} (own : p.half r = some h) :
    p.halves (pre ++ (k, r) :: post) = p.halves pre ++ h :: p.halves post := by
  simp only [Program.halves, List.filterMap_append, List.filterMap_cons, own]

theorem delayBits_recorded {role : Role} {e : Endian} {measureNumber seq : BitVec 32}
    {inputs : List (Stack × Recvmsg)} {tx rx : Timespec}
    (recorded : Recorded role (role.program e measureNumber) inputs seq tx rx) :
    delayBits id (record ((role.program e measureNumber).halves inputs)) seq.toNat = rx.nanos - tx.nanos := by
  obtain ⟨⟨pre, k, user, size, fill, src, cmsgs, post, split, read, last⟩,
    ⟨pre', k', sender, x, user', bytes, src', cmsgs', post', split', kind, holds, sent, emitted, last'⟩⟩ := recorded
  have received : (record ((role.program e measureNumber).halves inputs)).recv seq.toNat = some rx.nanos := by
    rw [split, halves_split _ pre post k (half_eventMessage role e measureNumber seq user size fill src read)]
    exact recv_of_last last
  have carried : (record ((role.program e measureNumber).halves inputs)).sent seq.toNat = some tx.nanos := by
    rw [sendFollowUp_message sender kind holds, sent] at emitted
    obtain rfl := Option.some.inj emitted
    rw [split', halves_split _ pre' post' k'
      (half_followUpMessage role e measureNumber seq user' tx.nanos _ _ src' cmsgs')]
    exact sent_of_last last'
  rw [delayBits, received, carried]
  rfl

theorem lines_of_results {p : Program} {ready : p.State → Prop} (lawful : Lawful p ready) {var : Int}
    {inputs : List (Stack × Recvmsg)} {l : p.Loop} (run : Run p.turn p.Feed (p.enter var) inputs l)
    {file : List Char} (stored : p.results l.st = some file) :
    Text.readlines file =
      (List.range (p.total l.st).toNat).map fun k => fprintfLu (delayBits id (record (p.halves inputs)) k) := by
  rw [Program.results] at stored
  split at stored
  · obtain ⟨file', stored', lines⟩ :=
      store_represents (run_represents lawful run).2 (fits_of_store stored)
    obtain rfl := Option.some.inj (stored.symm.trans stored')
    exact lines
  · cases stored

/-- The line of a recorded packet reads back as its exact signed delay exactly when the packet was
not received before it was sent. -/
theorem stored_delay_exact_iff (role : Role) (e : Endian) (measureNumber : BitVec 32) (var : Int)
    (inputs : List (Stack × Recvmsg)) (l : (role.program e measureNumber).Loop)
    (run : Run (role.program e measureNumber).turn (role.program e measureNumber).Feed
      ((role.program e measureNumber).enter var) inputs l)
    (seq : BitVec 32) (tx rx : Timespec) (sent : tx.Valid) (received : rx.Valid)
    (recorded : Recorded role (role.program e measureNumber) inputs seq tx rx)
    (file line : List Char) (stored : (role.program e measureNumber).results l.st = some file)
    (written : (Text.readlines file)[seq.toNat]? = some line) :
    Text.readInt line = some (rx.value - tx.value) ↔ tx.value ≤ rx.value := by
  obtain ⟨ready, lawful⟩ := role.lawful e measureNumber
  rw [lines_of_results lawful run stored, List.getElem?_map] at written
  obtain ⟨k, found, rfl⟩ := Option.map_eq_some_iff.mp written
  obtain ⟨inside, same⟩ := List.getElem?_eq_some_iff.mp found
  obtain rfl : seq.toNat = k := by rwa [List.getElem_range] at same
  rw [delayBits_recorded recorded, fprintfLu, Text.readInt_decimal_line, Option.some.injEq, toNat_delay sent received]
  have sent_fits := sent.fits
  split <;> omega

theorem recorded_arrivals (role : Role) (e : Endian) (measureNumber seq : BitVec 32) (user : BitVec 64)
    (tx rx : Timespec) :
    Recorded role (role.program e measureNumber)
      [arrival (role.peer.eventHeader seq user) rx, arrival (role.peer.followUpHeader seq user tx.nanos) ⟨0, 0⟩]
      seq tx rx where
  event := by
    refine ⟨[], _, user, _, _, _, _, _, rfl, rfl, ?_⟩
    have own := half_followUpMessage role e measureNumber seq user tx.nanos sizeofMdelayhdr 0 ⟨0, 0⟩
      [⟨solSocket, soTimestamping, 48, [⟨0, 0⟩, ⟨0, 0⟩, ⟨0, 0⟩]⟩]
    have alone := halves_split (role.program e measureNumber) [] [] .cleared own
    change (false, seq.toNat) ∉ ((role.program e measureNumber).halves [(Stack.cleared, _)]).map Half.key
    rw [List.nil_append] at alone
    rw [alone]
    simp [Program.halves, Half.key]
  followUp := by
    let x : Sender :=
      { sendUdpPacketsTimestamp ⟨0, 0⟩ role.peer.pkttype sizeofMdelayhdr 1 seq with
        mdelayhdr := (role.peer.eventHeader seq user).toNetwork .little 0
        ts2 := tx }
    refine ⟨[arrival (role.peer.eventHeader seq user) rx], _, .little, x, user, _, _, _, [], rfl, rfl, rfl, rfl, ?_,
      List.not_mem_nil⟩
    rw [sendFollowUp_message .little rfl rfl]
    rfl

theorem stored_delay_clock_behind :
    let p := Slave.program .little 1
    let inputs := [arrival (Role.master.eventHeader 0 0) ⟨0, 0⟩, arrival (Role.master.followUpHeader 0 0 5) ⟨0, 0⟩]
    ∃ l, Run p.turn p.Feed (p.enter 1) inputs l ∧ Recorded .slave p inputs 0 ⟨0, 5⟩ ⟨0, 0⟩ ∧
      Timespec.Valid ⟨0, 5⟩ ∧ Timespec.Valid ⟨0, 0⟩ ∧
      ∃ file line, p.results l.st = some file ∧ (Text.readlines file)[0]? = some line ∧
        Text.readInt line = some 18446744073709551611 ∧
        Timespec.value ⟨0, 0⟩ - Timespec.value ⟨0, 5⟩ = -5 := by
  intro p inputs
  obtain ⟨l, run, seen⟩ := run_of_exec p.turn p.Own (p.enter 1) inputs
    (fun l => p.results l.st) (some "18446744073709551611\n".toList) (by decide +kernel)
  refine ⟨l, run_feed_of_own run, recorded_arrivals .slave .little 1 0 0 ⟨0, 5⟩ ⟨0, 0⟩,
    ⟨by decide, by decide, by decide⟩, ⟨by decide, by decide, by decide⟩, _, _, seen, rfl, ?_, by decide⟩
  decide +kernel

theorem stored_delay_clocks_agree :
    let p := Slave.program .little 1
    let inputs := [arrival (Role.master.eventHeader 0 0) ⟨0, 9⟩, arrival (Role.master.followUpHeader 0 0 5) ⟨0, 0⟩]
    ∃ l file line, Run p.turn p.Feed (p.enter 1) inputs l ∧ p.results l.st = some file ∧
      (Text.readlines file)[0]? = some line ∧
      Text.readInt line = some (Timespec.value ⟨0, 9⟩ - Timespec.value ⟨0, 5⟩) := by
  intro p inputs
  obtain ⟨l, run, seen⟩ := run_of_exec p.turn p.Own (p.enter 1) inputs
    (fun l => p.results l.st) (some "4\n".toList) (by decide +kernel)
  refine ⟨l, _, _, run_feed_of_own run, seen, rfl, ?_⟩
  exact (stored_delay_exact_iff .slave .little 1 1 inputs l (run_feed_of_own run) 0 ⟨0, 5⟩ ⟨0, 9⟩
    ⟨by decide, by decide, by decide⟩ ⟨by decide, by decide, by decide⟩
    (recorded_arrivals .slave .little 1 0 0 ⟨0, 5⟩ ⟨0, 9⟩) _ _ seen rfl).mpr (by decide)

end Mdelay
