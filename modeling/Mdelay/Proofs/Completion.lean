import Mathlib.Data.List.Perm.Subperm
import Mdelay.Proofs.Reference
import Mdelay.Proofs.RxBeyond

/-!
# Whether the reference measurement completes

Only copies make a run longer. With timestamps on every packet, a receiver whose bound is not above the sender's
has left its arrays before the sender leaves its loop; with a higher bound, every run without losses and copies can
be continued until the sender has left its loop.
-/

namespace Mdelay
open ByteOrder Transition

/-! ### A receiver that gets timestamps -/

namespace Rx

variable {e : Endian} {cfg : Configuration} {start : Latencies cfg.entries} {l l' : Loop cfg.entries} {rs : List Call}

theorem length_timed_le (rs : List Call) : (timed rs).length ≤ rs.length := List.length_filterMap_le _ _

/-- There is room for one more packet. -/
theorem turn_of_room (fresh : start.totalReceived = 0) (run : Run (cfg.turn e) Any (Loop.enter start) rs l)
    (running : l.status = .running) (room : rs.length + 1 < cfg.entries) {r : Call} (times : r.times.isSome = true)
    (sent : 0 < r.got ∧ r.sendto = true) : ∃ l', cfg.turn e l r = some l' ∧ l'.status = .running := by
  obtain ⟨holds, -, -⟩ := noted_run fresh run (Or.inl running)
  obtain ⟨number, -⟩ := (counted_run run).running running
  have few := length_timed_le (rs ++ [r])
  rw [List.length_append, List.length_singleton] at few
  rcases printTime_cases holds (entries_small cfg) r with ⟨s, printed, -, -⟩ | ⟨-, full | ⟨-, short⟩⟩
  · have more : l.pktNum < cfg.cfgMaxPackets := by
      have small := cfg.cfgMaxPackets.isLt
      have bound : rs.length + 1 < cfg.cfgMaxPackets.toNat := room
      rw [number, BitVec.lt_def, BitVec.toNat_ofNat]
      omega
    have returned : r.skipped ∨ 0 ≤ r.got ∧ r.sendto = true := Or.inr ⟨Int.le_of_lt sent.1, sent.2⟩
    have filled : ¬ (r.got = 0 ∧ cfg.cfgProtocol = .tcp) := fun empty => by omega
    refine ⟨⟨.running, l.pktNum + 1, s, l.packets ++ (r.packet e).toList⟩, ?_, rfl⟩
    unfold Configuration.turn
    rw [if_pos running, doRecv_eq, printed]
    dsimp only
    rw [if_pos returned]
    dsimp only
    rw [if_neg filled, if_pos (Or.inl more)]
  · omega
  · rw [short] at times
    cases times

end Rx

namespace Reference

variable {c : Setup} {s t : Sys c} {l : Label} {ls : List Label} {a b : Echo.State Timeval} {act : Echo.Action Timeval}

/-! ### The length of a run -/

def Label.copies : Label → Bool
  | .dupDown _ | .dupUp _ => true
  | _ => false

/-- The steps that are left when the network makes no more copies. -/
def price (c : Setup) (a : Echo.State Timeval) : Nat :=
  3 * (c.sender.cfgMaxPackets.toNat - a.sent.length) + 2 * a.down.length + a.up.length

theorem length_taken {α : Type} {ks : List α} {i : Nat} {k : α} (found : ks[i]? = some k) :
    (ks.eraseIdx i).length + 1 = ks.length := by
  obtain ⟨inside, -⟩ := List.getElem?_eq_some_iff.mp found
  rw [List.length_eraseIdx_of_lt inside]
  omega

theorem price_step (bounded : b.sent.length ≤ c.sender.cfgMaxPackets.toNat) (stepped : Echo.Stepped a act b)
    (does : l.Does act t) : price c b + 1 ≤ price c a + if l.copies then 3 else 0 := by
  unfold price
  cases l with
  | send tv =>
    obtain rfl : act = .send tv := does
    cases stepped
    simp only [List.length_append, List.length_singleton, Label.copies] at bounded ⊢
    omega
  | arrive i src cmsgs call =>
    rcases does with ⟨rfl, -⟩ | ⟨rfl, -⟩
    · cases stepped with
      | reflect found =>
        have taken := length_taken found
        simp only [List.length_append, List.length_singleton]
        omega
    · cases stepped with
      | dropDown found =>
        have taken := length_taken found
        dsimp only
        omega
  | receive i tv =>
    rcases does with ⟨rfl, -⟩ | ⟨rfl, -⟩
    · cases stepped with
      | answer _ found =>
        have taken := length_taken found
        dsimp only
        omega
    · cases stepped with
      | dropUp found =>
        have taken := length_taken found
        dsimp only
        omega
  | dropDown i =>
    obtain rfl : act = .dropDown i := does
    cases stepped with
    | dropDown found =>
      have taken := length_taken found
      dsimp only
      omega
  | dropUp i =>
    obtain rfl : act = .dropUp i := does
    cases stepped with
    | dropUp found =>
      have taken := length_taken found
      dsimp only
      omega
  | dupDown i =>
    obtain rfl : act = .dupDown i := does
    cases stepped
    simp only [List.length_append, List.length_singleton, Label.copies, if_true]
    omega
  | dupUp i =>
    obtain rfl : act = .dupUp i := does
    cases stepped
    simp only [List.length_append, List.length_singleton, Label.copies, if_true]
    omega

/-- The packet that arrives has its timestamps. -/
def Label.Timed : Label → Prop
  | .arrive _ _ cmsgs call =>
    ((retrieveTimestamp (putCmsgs 1024 cmsgs)).bind fun ts => Rx.timesOf ts call.timeUser).isSome = true
  | _ => True

theorem got_payload (k : Nat) (tv : Timeval) (src : SockaddrIn) (cmsgs : List Cmsghdr) (call : Rx.Call) :
    { call with recvmsg := .message (RefSender.payload k tv) src cmsgs }.got = 900 := by
  have whole : (RefSender.payload k tv).take Rx.bufferSize = RefSender.payload k tv :=
    List.take_of_length_le (by rw [RefSender.length_payload]; decide)
  show (((RefSender.payload k tv).take Rx.bufferSize).length : Int) = 900
  rw [whole, RefSender.length_payload]
  rfl

theorem times_payload (k : Nat) (tv : Timeval) (src : SockaddrIn) (cmsgs : List Cmsghdr) (call : Rx.Call) :
    { call with recvmsg := .message (RefSender.payload k tv) src cmsgs }.times =
      (retrieveTimestamp (putCmsgs 1024 cmsgs)).bind fun ts => Rx.timesOf ts call.timeUser := by
  have filled : ¬ { call with recvmsg := .message (RefSender.payload k tv) src cmsgs }.skipped := by
    intro skipped
    have empty := skipped.1
    rw [got_payload] at empty
    cases empty
  rw [Rx.Call.times, Rx.Call.stamps, if_neg filled]
  rfl

theorem turn_of_arrive (refines : Refines s a) {i : Nat} {src : SockaddrIn} {cmsgs : List Cmsghdr} {call : Rx.Call}
    (taken : s.step (.arrive i src cmsgs call) = some t) :
    ∃ k, c.receiver.turn c.receiverEndian s.rx
      { call with recvmsg := .message (RefSender.payload k (sentAt a k)) src cmsgs } = some t.rx := by
  obtain ⟨frame, data, rx, found, accepted, turned, rfl⟩ := step_arrive.mp taken
  obtain ⟨k, -, rfl⟩ := found_map refines.down found
  obtain rfl := accepts_frame accepted
  exact ⟨k, turned⟩

def Label.IsArrive : Label → Prop
  | .arrive _ _ _ _ => True
  | _ => False

/-- Only a packet that arrives touches the receiver. -/
theorem rx_of_step (taken : s.step l = some t) (other : ¬ l.IsArrive) : t.rx = s.rx := by
  cases l with
  | send tv =>
    obtain ⟨-, rfl⟩ := step_send.mp taken
    rfl
  | arrive i src cmsgs call => exact absurd trivial other
  | receive i tv =>
    obtain ⟨-, -, -, -, rfl⟩ := step_receive.mp taken
    rfl
  | dropDown i =>
    obtain ⟨-, -, rfl⟩ := step_dropDown.mp taken
    rfl
  | dropUp i =>
    obtain ⟨-, -, rfl⟩ := step_dropUp.mp taken
    rfl
  | dupDown i =>
    obtain ⟨-, -, rfl⟩ := step_dupDown.mp taken
    rfl
  | dupUp i =>
    obtain ⟨-, -, rfl⟩ := step_dupUp.mp taken
    rfl

/-- In a run without copies the receiver has made the calls `rs`, no more than there were packets. -/
structure Fed (memory : Rx.Latencies c.receiver.entries) (s : Sys c) (a : Echo.State Timeval) (rs : List Rx.Call) :
    Prop where
  run : Run (c.receiver.turn c.receiverEndian) Any (Rx.Loop.enter memory) rs s.rx
  arrived : rs.length + a.down.length ≤ a.sent.length

theorem fed_start (memory : Rx.Latencies c.receiver.entries) (buf : List Byte) :
    Fed memory (Sys.start c memory buf) .start [] :=
  ⟨rfl, Nat.zero_le _⟩

theorem fed_arrive {memory : Rx.Latencies c.receiver.entries} {rs : List Rx.Call} (refines : Refines s a)
    (fed : Fed memory s a rs) {i : Nat} {src : SockaddrIn} {cmsgs : List Cmsghdr} {call : Rx.Call}
    (taken : s.step (.arrive i src cmsgs call) = some t) (stepped : Echo.Stepped a act b)
    (does : (Label.arrive i src cmsgs call).Does act t) : ∃ rs', Fed memory t b rs' := by
  obtain ⟨k, turned⟩ := turn_of_arrive refines taken
  obtain ⟨run, arrived⟩ := fed
  have more : Run (c.receiver.turn c.receiverEndian) Any (Rx.Loop.enter memory)
      (rs ++ [{ call with recvmsg := .message (RefSender.payload k (sentAt a k)) src cmsgs }]) t.rx :=
    run_append.mpr ⟨s.rx, run, trivial, t.rx, turned, rfl⟩
  refine ⟨_, more, ?_⟩
  rw [List.length_append, List.length_singleton]
  rcases does with ⟨rfl, -⟩ | ⟨rfl, -⟩
  · cases stepped with
    | reflect found =>
      have taken := length_taken found
      dsimp only
      omega
  · cases stepped with
    | dropDown found =>
      have taken := length_taken found
      dsimp only
      omega

theorem fed_step {memory : Rx.Latencies c.receiver.entries} {rs : List Rx.Call} (refines : Refines s a)
    (fed : Fed memory s a rs) (unduplicated : Unduplicated s l) (taken : s.step l = some t)
    (stepped : Echo.Stepped a act b) (does : l.Does act t) : ∃ rs', Fed memory t b rs' := by
  by_cases arrives : l.IsArrive
  · cases l with
    | arrive i src cmsgs call => exact fed_arrive refines fed taken stepped does
    | send tv | receive i tv | dropDown i | dropUp i | dupDown i | dupUp i => exact arrives.elim
  · have same := rx_of_step taken arrives
    obtain ⟨run, arrived⟩ := fed
    have counts : b.down.length + a.sent.length ≤ a.down.length + b.sent.length := by
      cases l with
      | send tv =>
        obtain rfl : act = .send tv := does
        cases stepped
        simp only [List.length_append, List.length_singleton]
        omega
      | arrive i src cmsgs call => exact absurd trivial arrives
      | receive i tv => rcases does with ⟨rfl, -⟩ | ⟨rfl, -⟩ <;> cases stepped <;> exact Nat.le_refl _
      | dropDown i =>
        obtain rfl : act = .dropDown i := does
        cases stepped with
        | dropDown found =>
          have taken := length_taken found
          dsimp only
          omega
      | dropUp i =>
        obtain rfl : act = .dropUp i := does
        cases stepped
        exact Nat.le_refl _
      | dupDown i | dupUp i => exact unduplicated.elim
    refine ⟨rs, ?_, by omega⟩
    rw [same]
    exact run

/-! ### Too few entries -/

section Beyond

variable {s t : SysOn c}

theorem main_cases {cfg : RefSender.Configuration} {e : Endian} {r : RefSender.Recvfrom} {tv : Timeval}
    {x y : RefSender.Main} (turned : cfg.turn e r tv x = some y) :
    (y.i = x.i ∧ y.status = .exited) ∨ (y.i = x.i + 1 ∧ (y.status = .left → cfg.cfgMaxPackets.toNat ≤ y.i)) := by
  unfold RefSender.Configuration.turn at turned
  by_cases running : x.status = .running
  · rw [if_pos running] at turned
    cases r with
    | error | message bytes =>
      dsimp only at turned
      split at turned
      · obtain rfl := Option.some.inj turned
        exact Or.inl ⟨rfl, rfl⟩
      · obtain rfl := Option.some.inj turned
        refine Or.inr ⟨rfl, fun left => ?_⟩
        dsimp only at left ⊢
        split at left
        · cases left
        · omega
  · rw [if_neg running] at turned
    cases turned

/-- The network copies nothing, and every packet that arrives has timestamps. -/
def Timestamped (_ : SysOn c) (input : Label × Timespec × Timespec) : Prop :=
  match input.1 with
  | .arrive _ _ cmsgs _ => (retrieveTimestamp (putCmsgs 1024 cmsgs)).isSome = true
  | .dupDown _ | .dupUp _ => False
  | _ => True

instance (s : SysOn c) : (input : Label × Timespec × Timespec) → Decidable (Timestamped s input)
  | (.arrive _ _ cmsgs _, _) => inferInstanceAs (Decidable ((retrieveTimestamp (putCmsgs 1024 cmsgs)).isSome = true))
  | (.dupDown _, _) | (.dupUp _, _) => .isFalse id
  | (.send _, _) | (.receive .., _) | (.dropDown _, _) | (.dropUp _, _) => .isTrue trivial

/-- What `main` has received, and what is still on its way back, the receiver has returned. -/
structure Returned (memory : Rx.Memory c.receiver.entries) (s : SysOn c) (rs : List (Rx.Call × Timespec × Timespec)) :
    Prop where
  run : Run (c.receiver.turnOn c.receiverEndian) Any (Rx.LoopOn.enter memory) rs s.rx
  timed : ∀ r ∈ rs, r.1.skipped ∨ r.1.stamps.isSome = true
  answers : s.main.i + s.up.length ≤ s.rx.packets.length
  left : s.main.status = .left → c.sender.cfgMaxPackets.toNat ≤ s.main.i

variable {memory : Rx.Memory c.receiver.entries} {rs : List (Rx.Call × Timespec × Timespec)}

theorem returned_arrive (returned : Returned memory s rs) {i : Nat} {src : SockaddrIn} {cmsgs : List Cmsghdr}
    {call : Rx.Call} {past : Timespec × Timespec} (stamped : (retrieveTimestamp (putCmsgs 1024 cmsgs)).isSome = true)
    (taken : s.step (.arrive i src cmsgs call, past) = some t) : ∃ rs', Returned memory t rs' := by
  obtain ⟨data, -, taken⟩ := Option.bind_eq_some_iff.mp taken
  obtain ⟨rx, turned, rfl⟩ := Option.map_eq_some_iff.mp taken
  let r : Rx.Call := { call with recvmsg := .message data src cmsgs }
  refine ⟨rs ++ [(r, past)], run_append.mpr ⟨s.rx, returned.run, trivial, rx, turned, rfl⟩, ?_, ?_, returned.left⟩
  · refine List.forall_mem_append.mpr ⟨returned.timed, List.forall_mem_singleton.mpr ?_⟩
    by_cases skipped : r.skipped
    · exact Or.inl skipped
    · refine Or.inr ?_
      rw [Rx.Call.stamps, if_neg skipped]
      exact stamped
  · have answers := returned.answers
    have grown := Rx.packets_of_turnOn turned
    show s.main.i + (s.up ++ (rx.packets.drop s.rx.packets.length).map Rx.Packet.datagram).length ≤ rx.packets.length
    rw [List.length_append, List.length_map, List.length_drop]
    omega

theorem returned_receive (returned : Returned memory s rs) {i : Nat} {tv : Timeval} {past : Timespec × Timespec}
    (taken : s.step (.receive i tv, past) = some t) : Returned memory t rs := by
  obtain ⟨bytes, found, taken⟩ := Option.bind_eq_some_iff.mp taken
  obtain ⟨main, turned, rfl⟩ := Option.map_eq_some_iff.mp taken
  have answers := returned.answers
  have fewer := length_taken found
  rcases main_cases turned with ⟨same, exited⟩ | ⟨next, left⟩
  · refine ⟨returned.run, returned.timed, ?_, fun left => ?_⟩
    · show main.i + (s.up.eraseIdx i).length ≤ s.rx.packets.length
      omega
    · cases exited.symm.trans left
  · refine ⟨returned.run, returned.timed, ?_, left⟩
    show main.i + (s.up.eraseIdx i).length ≤ s.rx.packets.length
    omega

theorem returned_step (returned : Returned memory s rs) {input : Label × Timespec × Timespec}
    (stamped : Timestamped s input) (taken : s.step input = some t) : ∃ rs', Returned memory t rs' := by
  obtain ⟨l, past⟩ := input
  cases l with
  | arrive i src cmsgs call => exact returned_arrive returned stamped taken
  | receive i tv => exact ⟨rs, returned_receive returned taken⟩
  | send tv =>
    simp only [SysOn.step, Option.ite_none_right_eq_some, Option.some.injEq] at taken
    obtain ⟨-, rfl⟩ := taken
    exact ⟨rs, returned.run, returned.timed, returned.answers, returned.left⟩
  | dropDown i =>
    simp only [SysOn.step, Option.ite_none_right_eq_some, Option.some.injEq] at taken
    obtain ⟨-, rfl⟩ := taken
    exact ⟨rs, returned.run, returned.timed, returned.answers, returned.left⟩
  | dropUp i =>
    simp only [SysOn.step, Option.ite_none_right_eq_some, Option.some.injEq] at taken
    obtain ⟨-, rfl⟩ := taken
    have fewer := List.length_eraseIdx_le s.up i
    have answers := returned.answers
    refine ⟨rs, returned.run, returned.timed, ?_, returned.left⟩
    show s.main.i + (s.up.eraseIdx i).length ≤ s.rx.packets.length
    omega
  | dupDown i | dupUp i => exact stamped.elim

/-- With timestamps on every packet and no copies, a receiver whose bound is not above the sender's has accessed
something outside its arrays by the time the sender's `main` leaves its loop. -/
theorem completed_run_strays (some : 0 < c.sender.cfgMaxPackets.toNat)
    (few : c.receiver.entries ≤ c.sender.cfgMaxPackets.toNat) (memory : Rx.Memory c.receiver.entries)
    (fresh : memory.Fresh) (buf : List Byte) (ls : List (Label × Timespec × Timespec))
    (run : Run SysOn.step Timestamped (SysOn.start c memory buf) ls s) (left : s.main.status = .left) :
    s.rx.st.strayed = true := by
  obtain ⟨rs, returned⟩ : ∃ rs, Returned memory s rs := by
    refine run_invariant (I := fun s : SysOn c => ∃ rs, Returned memory s rs) ?_ ?_ run
    · intro s input t kept stamped taken
      obtain ⟨rs, returned⟩ := kept
      exact returned_step returned stamped taken
    · refine ⟨[], rfl, List.forall_mem_nil _, Nat.le_refl 0, fun left => ?_⟩
      change (if 0 < c.sender.cfgMaxPackets.toNat then LoopStatus.running else .left) = .left at left
      rw [if_pos some] at left
      cases left
  have answers := returned.answers
  have all := returned.left left
  have packets := Rx.packets_le_stamped returned.run returned.timed
  rw [(Rx.rx_strays_iff memory fresh rs s.rx returned.run).1]
  omega

end Beyond

/-- Both programs started for two packets. -/
def Setup.pair : Setup where
  sender := ⟨['e', 't', 'h', '0'], 2, 1337, 2⟩
  receiver := Rx.pair
  senderEndian := .little
  receiverEndian := .big

def stamps : List Cmsghdr := [⟨solSocket, soTimestamping, 48, [⟨0, 500⟩, ⟨0, 0⟩, ⟨0, 400⟩]⟩]

/-- Packet 1 comes back before packet 0. -/
def twoTrips : List (Label × Timespec × Timespec) :=
  [Label.send ⟨0, 5⟩, .send ⟨0, 15⟩, .arrive 1 ⟨0, 0⟩ stamps Rx.timedArrival, .arrive 0 ⟨0, 0⟩ stamps Rx.timedArrival,
    .receive 0 ⟨0, 19⟩, .receive 0 ⟨0, 20⟩].map fun l => (l, ⟨0, 0⟩, ⟨0, 0⟩)

theorem completed_run_strays_pair : ∃ s : SysOn .pair,
    Run SysOn.step Timestamped (SysOn.start .pair Rx.pairMemoryOn []) twoTrips s ∧ s.rx.status = .left ∧
      s.main.latencyNumbers = [4000, 15000] ∧ s.rx.st.strayed = true := by
  obtain ⟨s, run, seen⟩ := run_of_exec SysOn.step Timestamped (SysOn.start .pair Rx.pairMemoryOn []) twoTrips
    (fun s => (s.main.status, s.rx.status, s.main.latencyNumbers)) (.left, .left, [4000, 15000]) (by decide +kernel)
  obtain ⟨left, rest⟩ := Prod.mk.inj seen
  obtain ⟨rx, numbers⟩ := Prod.mk.inj rest
  exact ⟨s, run, rx, numbers,
    completed_run_strays (c := .pair) (by decide) (by decide) Rx.pairMemoryOn Rx.fresh_pair [] twoTrips run left⟩

/-! ### Enough entries -/

theorem unduplicated_of_lossless (lossless : Lossless s l) : Unduplicated s l := by
  cases l with
  | send tv | arrive i src cmsgs call | receive i tv => trivial
  | dropDown i | dropUp i | dupDown i | dupUp i => exact lossless.elim

/-- A run that is still going as it should: nothing is lost, and the receiver runs. -/
structure Going (memory : Rx.Latencies c.receiver.entries) (s : Sys c) (a : Echo.State Timeval) (ls : List Label)
    (rs : List Rx.Call) : Prop where
  single : Single s a [] ls
  fed : Fed memory s a rs
  stamped : Stamped ls
  running : s.rx.status = .running

theorem lost_of_lossless (lossless : Lossless s l) (does : l.Does act t) (running : t.rx.status = .running)
    (alive : t.main.status ≠ .exited) : a.lost act = [] := by
  cases l with
  | send tv =>
    obtain rfl : act = .send tv := does
    rfl
  | arrive i src cmsgs call =>
    rcases does with ⟨rfl, -⟩ | ⟨-, stopped⟩
    · rfl
    · rw [running] at stopped
      simp at stopped
  | receive i tv =>
    rcases does with ⟨rfl, -⟩ | ⟨-, exited⟩
    · rfl
    · exact absurd exited alive
  | dropDown i | dropUp i | dupDown i | dupUp i => exact lossless.elim

variable {memory : Rx.Latencies c.receiver.entries} {rs : List Rx.Call}

theorem going_step (going : Going memory s a ls rs) (lossless : Lossless s l) (taken : s.step l = some t)
    (stamped : Stamped (ls ++ [l])) (running : t.rx.status = .running) :
    ∃ b rs', Going memory t b (ls ++ [l]) rs' ∧ price c b < price c a := by
  have unduplicated := unduplicated_of_lossless lossless
  obtain ⟨act, b, stepped, does, single⟩ := single_step going.single unduplicated taken
  obtain ⟨rs', fed⟩ := fed_step going.single.traced.refines going.fed unduplicated taken stepped does
  rw [lost_of_lossless lossless does running (single.steadfast stamped)] at single
  have step := price_step single.traced.refines.bounded stepped does
  have plain : l.copies = false := by
    cases l with
    | send tv | arrive i src cmsgs call | receive i tv => rfl
    | dropDown i | dropUp i | dupDown i | dupUp i => exact lossless.elim
  rw [plain] at step
  exact ⟨b, rs', ⟨single, fed, stamped, running⟩, step⟩

theorem running_of_step (refines : Refines s a) (taken : s.step l = some t) (running : t.rx.status = .running) :
    s.rx.status = .running := by
  by_cases arrives : l.IsArrive
  · cases l with
    | arrive i src cmsgs call => exact (refines_arrive refines taken).1
    | send tv | receive i tv | dropDown i | dropUp i | dupDown i | dupUp i => exact arrives.elim
  · rwa [rx_of_step taken arrives] at running

theorem going_run {buf : List Byte} (run : Run Sys.step Lossless (Sys.start c memory buf) ls s) (stamped : Stamped ls)
    (running : s.rx.status = .running) : ∃ a rs, Going memory s a ls rs := by
  have invariant := run_history
    (I := fun (s : Sys c) ls => (∃ a, Refines s a) ∧
      (Stamped ls → s.rx.status = .running → ∃ a rs, Going memory s a ls rs)) (f := some) (h := []) ?_
    ⟨⟨_, refines_start memory buf⟩, fun stamped running =>
      ⟨.start, [], single_start memory buf, fed_start memory buf, stamped, running⟩⟩ run
  · rw [List.filterMap_some, List.nil_append] at invariant
    exact invariant.2 stamped running
  · intro s ls l t kept lossless taken
    obtain ⟨⟨a, refines⟩, going⟩ := kept
    obtain ⟨act, b, -, refines', -⟩ := refines_step refines taken
    refine ⟨⟨b, refines'⟩, fun stamped running => ?_⟩
    obtain ⟨a, rs, going⟩ := going (stamped_of_snoc stamped) (running_of_step refines taken running)
    obtain ⟨b, rs', going', -⟩ := going_step going lossless taken stamped running
    exact ⟨b, rs', going'⟩

/-! ### The next step -/

/-- Some time has none of these numbers of nanoseconds: the multiples of 1000 are too many. -/
theorem exists_stamp (used : List (BitVec 64)) (few : used.length ≤ 4294967296) : ∃ tv : Timeval, tv.nanos ∉ used := by
  by_contra all
  have taken (n : Nat) : Timeval.nanos ⟨0, BitVec.ofNat 64 n⟩ ∈ used := by
    by_contra free
    exact all ⟨_, free⟩
  have number (n : Nat) : Timeval.nanos ⟨0, BitVec.ofNat 64 n⟩ = BitVec.ofNat 64 (n * 1000) := by
    rw [BitVec.ofNat_mul, Timeval.nanos]
    simp
  have whole (n : Nat) (member : n ∈ List.range (used.length + 1)) : (BitVec.ofNat 64 (n * 1000)).toNat = n * 1000 := by
    have small : n * 1000 < 18446744073709551616 := by
      rw [List.mem_range] at member
      omega
    exact Nat.mod_eq_of_lt small
  have distinct : ((List.range (used.length + 1)).map fun n => BitVec.ofNat 64 (n * 1000)).Nodup := by
    refine List.Nodup.map_on ?_ List.nodup_range
    intro i first j second same
    have equal := congrArg BitVec.toNat same
    rw [whole i first, whole j second] at equal
    omega
  have inside : ((List.range (used.length + 1)).map fun n => BitVec.ofNat 64 (n * 1000)) ⊆ used := by
    intro v member
    obtain ⟨n, -, rfl⟩ := List.mem_map.mp member
    rw [← number]
    exact taken n
  have count := (List.subperm_of_subset distinct inside).length_le
  rw [List.length_map, List.length_range] at count
  omega

theorem stamped_snoc (stamped : Stamped ls) (other : sendTimes [l] = []) : Stamped (ls ++ [l]) := by
  have same : sendTimes (ls ++ [l]) = sendTimes ls := by rw [sendTimes_snoc, other, List.append_nil]
  exact ⟨by rw [same]; exact stamped.distinct, by rw [same]; exact stamped.nonzero⟩

theorem can_send (going : Going memory s a ls rs) (more : a.sent.length < c.sender.cfgMaxPackets.toNat) :
    ∃ tv t, s.step (.send tv) = some t ∧ Stamped (ls ++ [.send tv]) ∧ t.rx.status = .running := by
  have traced := going.single.traced
  have bound := c.sender.cfgMaxPackets.isLt
  have count : (sendTimes ls).length = a.sent.length := by rw [traced.sent]
  obtain ⟨tv, fresh⟩ := exists_stamp (0 :: (sendTimes ls).map Timeval.nanos) (by
    rw [List.length_cons, List.length_map, count]
    omega)
  rw [List.mem_cons, not_or] at fresh
  have alive := going.single.steadfast going.stamped
  refine ⟨tv, _, step_send.mpr ⟨⟨by rw [traced.refines.number]; exact more, alive⟩, rfl⟩, ⟨?_, ?_⟩, going.running⟩
  · rw [sendTimes_snoc, List.map_append]
    exact List.nodup_append.mpr ⟨going.stamped.distinct, List.nodup_singleton _, fun x member y last same =>
      fresh.2 (by rwa [← List.mem_singleton.mp last, ← same])⟩
  · rw [sendTimes_snoc, List.map_append, List.mem_append, not_or]
    exact ⟨going.stamped.nonzero, fun member => fresh.1 (List.mem_singleton.mp member).symm⟩

theorem can_arrive (port : c.receiver.cfgPort = 1337) (room : c.sender.cfgMaxPackets.toNat < c.receiver.entries)
    (fresh : memory.totalReceived = 0) (going : Going memory s a ls rs) (some : a.down ≠ []) :
    ∃ t, s.step (.arrive 0 ⟨0, 0⟩ stamps Rx.timedArrival) = .some t ∧ t.rx.status = .running := by
  have refines := going.single.traced.refines
  have arrived := going.fed.arrived
  have bounded := refines.bounded
  obtain ⟨k, rest, down⟩ := List.exists_cons_of_ne_nil some
  rw [down, List.length_cons] at arrived
  have found : s.down[0]? = .some (RefSender.frame c.senderEndian k (sentAt a k)) := by rw [refines.down, down]; rfl
  have accepted : c.accepts (RefSender.frame c.senderEndian k (sentAt a k)) =
      .some (RefSender.payload k (sentAt a k)) := by
    rw [Setup.accepts, RefSender.ofFrame_frame, Option.bind_some, if_pos (by rw [port]; rfl)]
  have times := times_payload k (sentAt a k) ⟨0, 0⟩ stamps Rx.timedArrival
  have got := got_payload k (sentAt a k) ⟨0, 0⟩ stamps Rx.timedArrival
  obtain ⟨rx, turned, running⟩ := Rx.turn_of_room fresh going.fed.run going.running (by omega)
    (by rw [times]; rfl) ⟨by rw [got]; decide, rfl⟩
  exact ⟨_, step_arrive.mpr ⟨_, _, rx, found, accepted, turned, rfl⟩, running⟩

theorem can_receive (going : Going memory s a ls rs) (running : s.main.status = .running) (some : a.up ≠ []) :
    ∃ t, s.step (.receive 0 ⟨0, 0⟩) = .some t ∧ t.rx.status = .running := by
  obtain ⟨k, rest, up⟩ := List.exists_cons_of_ne_nil some
  have found : s.up[0]? = .some (RefSender.payload k (sentAt a k)) := by
    rw [going.single.traced.refines.up, up]
    rfl
  have turns : ∃ main, c.sender.turn c.senderEndian (.message (RefSender.payload k (sentAt a k))) ⟨0, 0⟩ s.main =
      .some main := by
    unfold RefSender.Configuration.turn
    rw [if_pos running]
    dsimp only
    split
    · exact ⟨_, rfl⟩
    · exact ⟨_, rfl⟩
  obtain ⟨main, turned⟩ := turns
  exact ⟨_, step_receive.mpr ⟨_, main, found, turned, rfl⟩, going.running⟩

/-- Short of the end there is a packet to send, to return or to receive. -/
theorem waits (going : Going memory s a ls rs) (running : s.main.status = .running) :
    a.sent.length < c.sender.cfgMaxPackets.toNat ∨ a.down ≠ [] ∨ a.up ≠ [] := by
  by_contra none
  rw [not_or, not_or, not_not, not_not] at none
  obtain ⟨sent, down, up⟩ := none
  have few := going.single.traced.refines.running running
  have count := going.single.accounted.length_eq
  rw [Echo.State.numbers, down, up, List.append_nil, List.append_nil, List.append_nil, List.length_range,
    Echo.State.answered, List.length_map] at count
  omega

/-- The schedules of `timed_run_completes`. -/
def TimedLossless (s : Sys c) (l : Label) : Prop := Lossless s l ∧ l.Timed

theorem going_moves (port : c.receiver.cfgPort = 1337) (room : c.sender.cfgMaxPackets.toNat < c.receiver.entries)
    (fresh : memory.totalReceived = 0) (going : Going memory s a ls rs) (short : s.main.status ≠ .left) :
    ∃ l t, TimedLossless s l ∧ s.step l = some t ∧ ∃ b ls' rs', Going memory t b ls' rs' ∧ price c b < price c a := by
  have running : s.main.status = .running := by
    cases status : s.main.status with
    | running => rfl
    | left => exact absurd status short
    | exited => exact absurd status (going.single.steadfast going.stamped)
    | faulted => exact absurd status going.single.traced.refines.sane
  rcases waits going running with more | some | some
  · obtain ⟨tv, t, taken, stamped, running'⟩ := can_send going more
    have lossless : Lossless s (.send tv) := trivial
    obtain ⟨b, rs', going', less⟩ := going_step going lossless taken stamped running'
    exact ⟨_, t, ⟨lossless, trivial⟩, taken, b, _, rs', going', less⟩
  · obtain ⟨t, taken, running'⟩ := can_arrive port room fresh going some
    have lossless : Lossless s (.arrive 0 ⟨0, 0⟩ stamps Rx.timedArrival) := trivial
    obtain ⟨b, rs', going', less⟩ := going_step going lossless taken (stamped_snoc going.stamped rfl) running'
    exact ⟨_, t, ⟨lossless, rfl⟩, taken, b, _, rs', going', less⟩
  · obtain ⟨t, taken, running'⟩ := can_receive going running some
    have lossless : Lossless s (.receive 0 ⟨0, 0⟩) := trivial
    obtain ⟨b, rs', going', less⟩ := going_step going lossless taken (stamped_snoc going.stamped rfl) running'
    exact ⟨_, t, ⟨lossless, trivial⟩, taken, b, _, rs', going', less⟩

/-- With a bound above the sender's and the port that the sender uses, a run without losses and copies whose
receiver runs can be continued until the sender has left its loop, with timestamps on every packet. -/
theorem timed_run_completes (port : c.receiver.cfgPort = 1337)
    (room : c.sender.cfgMaxPackets.toNat < c.receiver.entries) (memory : Rx.Latencies c.receiver.entries)
    (fresh : memory.totalReceived = 0) (buf : List Byte) (ls : List Label)
    (run : Run Sys.step Lossless (Sys.start c memory buf) ls s) (stamped : Stamped ls)
    (running : s.rx.status = .running) :
    ∃ ls' t, Run Sys.step Lossless s ls' t ∧ (∀ l ∈ ls', l.Timed) ∧ t.main.status = .left ∧
      t.main.latencyNumbers.length = c.sender.cfgMaxPackets.toNat ∧ t.up = [] ∧ t.down = [] := by
  obtain ⟨a, rs, going⟩ := going_run run stamped running
  have moves (s : Sys c) (a : Echo.State Timeval) (kept : ∃ ls rs, Going memory s a ls rs)
      (short : ¬ s.main.status = .left) : ∃ l t b, TimedLossless s l ∧ s.step l = some t ∧
        (∃ ls rs, Going memory t b ls rs) ∧ price c b < price c a := by
    obtain ⟨ls, rs, going⟩ := kept
    obtain ⟨l, t, allowed, taken, b, ls', rs', going', less⟩ := going_moves port room fresh going short
    exact ⟨l, t, b, allowed, taken, ⟨ls', rs', going'⟩, less⟩
  obtain ⟨ls', t, b, run', ⟨ls'', rs', going'⟩, left⟩ := exists_run_of_progress
    (fun (s : Sys c) a => ∃ ls rs, Going memory s a ls rs) (fun _ a => price c a) (fun s => s.main.status = .left) moves
    ⟨ls, rs, going⟩
  have refines := going'.single.traced.refines
  have all := refines.left left
  have bounded := refines.bounded
  obtain ⟨-, up, down, -⟩ := Echo.answered_perm going'.single.accounted (by omega)
  refine ⟨ls', t, run_mono (fun _ _ both => both.1) run', run_forall (fun _ _ both => both.2) run', left, ?_, ?_, ?_⟩
  · rw [refines.latencies, List.length_map]
    exact all
  · rw [refines.up, up]
    rfl
  · rw [refines.down, down]
    rfl

/-- Packet 1 has come back, packet 0 is on its way and packet 2 has not been sent. -/
def begunTrips : List Label :=
  [.send ⟨0, 5⟩, .send ⟨0, 15⟩, .arrive 1 ⟨0, 0⟩ stamps Rx.timedArrival, .receive 0 ⟨0, 19⟩]

theorem timed_run_completes_begun : ∃ s : Sys .several,
    Run Sys.step Lossless (Sys.start .several severalMemory []) begunTrips s ∧
      ∃ ls' t, Run Sys.step Lossless s ls' t ∧ (∀ l ∈ ls', l.Timed) ∧ t.main.status = .left ∧
        t.main.latencyNumbers.length = 3 ∧ t.up = [] ∧ t.down = [] := by
  obtain ⟨s, run, running⟩ := run_of_exec Sys.step Lossless (Sys.start .several severalMemory []) begunTrips
    (fun s => s.rx.status) .running (by decide +kernel)
  exact ⟨s, run, timed_run_completes (c := .several) rfl (by decide) severalMemory rfl [] _ run
    ⟨by decide +kernel, by decide +kernel⟩ running⟩

end Reference

end Mdelay
