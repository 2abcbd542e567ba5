import Mdelay.Proofs.Stream

/-!
# TCP mode refines UDP mode

As long as every read sees a header, a run over TCP is a run over a datagram network that keeps its
order, up to the read after one that was not a whole message: that read stops the program.
-/

namespace Mdelay.Tcp
open ByteOrder TwoStep Transition

variable {c : Config} {n : Nat} {positive : Prop} {torn : Role → Bool} {s t : Sys c} {u v w : Mdelay.Sys c}
  {a b : Exchange Timespec} {r : Role}

/-! ### Schedules -/

/-- Every read returns a header at least. -/
def Headed (_ : Sys c) : Label → Prop
  | .recv _ size _ _ => sizeofMdelayhdr ≤ size
  | _ => True

/-- Every read returns one message. -/
def Whole (_ : Sys c) : Label → Prop
  | .recv r size _ _ => size = r.peer.pktsize
  | _ => True

instance (s : Sys c) : (l : Label) → Decidable (Headed s l)
  | .recv _ size _ _ => inferInstanceAs (Decidable (sizeofMdelayhdr ≤ size))
  | .move _ | .eof .. => .isTrue trivial

instance (s : Sys c) : (l : Label) → Decidable (Whole s l)
  | .recv r size _ _ => inferInstanceAs (Decidable (size = r.peer.pktsize))
  | .move _ | .eof .. => .isTrue trivial

theorem headed_of_whole {l : Label} (whole : Whole s l) : Headed s l := by
  cases l with
  | recv r size k cmsgs =>
    obtain rfl : size = r.peer.pktsize := whole
    exact (pktsize_bounds r.peer).1
  | move | eof => trivial

/-! ### The simulation -/

/-- The state `u` of UDP mode has the same hosts and on its way the messages whose headers are still to
be read. `torn r` says that the last read of `r` was not one message. -/
structure Follows (c : Config) (n : Nat) (positive : Prop) (torn : Role → Bool) (s : Sys c) (u : Mdelay.Sys c)
    (a : Exchange Timespec) : Prop where
  host : ∀ r, HostAlike c r (s.host r) (u.host r)
  ready : ∀ r, Ready c r (s.host r).loop.st
  trace : s.trace = u.trace
  stream : ∀ r, if torn r then Misread r (s.stream r) (bytesFrom c r.peer u.net)
    else s.stream r = bytesFrom c r.peer u.net
  link : Link c n positive u a

theorem follows_start (started : c.Started n) (var : Role → Int) :
    Follows c n (∀ r, 0 < var r) (fun _ => false) (Sys.start c var) (Mdelay.Sys.start c var) (Exchange.start n) where
  host
    | .master => ⟨rfl, rfl, rfl, rfl, Iff.rfl, rfl⟩
    | .slave => ⟨rfl, rfl, rfl, rfl, Iff.rfl, rfl⟩
  ready
    | .master => trivial
    | .slave => fun _ => rfl
  trace := rfl
  stream _ := rfl
  link := link_start started var

theorem follows_move (started : c.Started n) (follows : Follows c n positive torn s u a) {l : Mdelay.Label}
    (taken : s.step (.move l) = some t) :
    ∃ v b, Ordered u l ∧ u.step l = some v ∧ Answers c a l b ∧ Follows c n positive torn t v b := by
  obtain ⟨-, w, taken', rfl⟩ := step_move.mp taken
  obtain ⟨ordered, v, stepped, moved⟩ := moved_of_step follows.host follows.trace taken'
  obtain ⟨b, answers, link⟩ := link_step started follows.link ordered stepped
  refine ⟨v, b, ordered, stepped, answers, moved.host, fun r => ?_, moved.trace, fun r => ?_, link⟩
  · have ready := follows.ready r
    rw [← moved.state r] at ready
    exact ready
  · have stream := follows.stream r
    rw [moved.net]
    split
    · rename_i torn
      rw [if_pos torn] at stream
      exact stream.append _
    · rename_i whole
      rw [if_neg whole] at stream
      exact congrArg (· ++ bytesFrom c r.peer w.net) stream

theorem ready_receive (k : Stack) (recv : Recvmsg) {h : Host (c.program r)} (ready : Ready c r h.loop.st) :
    Ready c r (h.receive ((c.program r).doRecv k recv h.loop.st)).loop.st := by
  cases r with
  | master => trivial
  | slave =>
    have kept (got : Int) {st : (c.program .slave).State}
        (outcome : ((c.program .slave).doRecv k recv h.loop.st).outcome = some (got, st)) : Ready c .slave st :=
      Slave.ready_of_outcome ready outcome
    cases result : (c.program .slave).doRecv k recv h.loop.st with
    | returned got st | sending got st x => exact kept got (by rw [result]; rfl)
    | exited | faulted => exact ready

/-- A read that starts with a message is the delivery of that message, however much of it or behind it
the read takes. -/
theorem follows_recv (started : c.Started n) (follows : Follows c n positive torn s u a) (aligned : torn r = false)
    {size : Nat} (headed : 40 ≤ size) {k : Stack} {cmsgs : List Cmsghdr}
    (taken : s.step (.recv r size k cmsgs) = some t) :
    ∃ i v b, Ordered u (.deliver r i k cmsgs) ∧ u.step (.deliver r i k cmsgs) = some v ∧
      Answers c a (.deliver r i k cmsgs) b ∧
      Follows c n positive (Function.update torn r (decide (size ≠ r.peer.pktsize))) t v b := by
  obtain ⟨nic, read, ⟨some, most, there, waits⟩, rfl⟩ := step_recv.mp taken
  have stream := follows.stream r
  rw [if_neg (by rw [aligned]; exact Bool.noConfusion)] at stream
  have nonempty : bytesFrom c r.peer u.net ≠ [] := by
    intro empty
    rw [stream, empty] at there
    exact absurd there (Nat.not_le_of_lt some)
  obtain ⟨i, d, found, src, first, split, others⟩ := first_of_bytes nonempty
  obtain ⟨dst, ordered⟩ := ordered_of_first started follows.link found src first k cmsgs
  obtain ⟨r', src', m, bytes⟩ := follows.link.formed d (List.mem_of_getElem? found)
  obtain rfl : r.peer = r' := address_inj (src.symm.trans src')
  have size_message := m.length_bytes
  have header := (pktsize_bounds r.peer).1
  rw [← bytes] at split
  have chunk : ((s.stream r).take size).length = size := by rw [List.length_take, Nat.min_eq_left there]
  have same : decode .big ((s.stream r).take size) = decode .big d.bytes := by
    rw [← decode_take, ← decode_take .big d.bytes, List.take_take, Nat.min_eq_left headed, stream, split, ← bytes,
      List.take_append_of_le_length (by omega)]
  have outcome : OutcomeAlike (c.program r).measurements (c.address r.peer)
      ((c.program r).doRecv k (.message ((s.stream r).take size) k.hostAddress cmsgs) (s.host r).loop.st)
      ((c.program r).doRecv k (.message d.bytes d.src cmsgs) (u.host r).loop.st) := by
    have meas := (follows.host r).meas
    rw [src]
    cases r with
    | master =>
      have state : (u.host .master).loop.st = (s.host .master).loop.st := meas
      rw [state]
      exact outcome_master _ k _ _ cmsgs (by omega) (by rw [← bytes]; omega) same _ _
    | slave =>
      exact outcome_slave _ k _ _ cmsgs (by omega) (by rw [← bytes]; omega) same (follows.ready .slave)
        follows.link.refines.peer meas
  have taken' := (step_deliver (k := k)).mpr ⟨d, nic, found, read, ⟨dst, ((follows.host r).waits).trans waits⟩, rfl⟩
  obtain ⟨b, answers, link⟩ := link_step started follows.link ordered taken'
  refine ⟨i, _, b, ordered, taken', answers, ?_, fun r' => ?_, ?_, fun r' => ?_, link⟩
  · exact alike_setHost follows.host (alike_receive (follows.host r) outcome)
  · dsimp only
    by_cases here : r' = r
    · subst here
      have ready := ready_receive k (.message ((s.stream r').take size) k.hostAddress cmsgs) (follows.ready r')
      rw [Function.update_self]
      exact ready
    · rw [Function.update_of_ne here]
      exact follows.ready r'
  · rw [Obs.of, same, follows.trace]
    rfl
  · dsimp only
    by_cases here : r' = r
    · subst here
      have next := misread_of_read m (bytesFrom c r'.peer (u.net.eraseIdx i)) headed most
        (by rw [← split, ← stream]; exact there)
      rw [← split, ← stream] at next
      rw [Function.update_self, Function.update_self]
      simpa using next
    · have old := follows.stream r'
      rw [Function.update_of_ne here, Function.update_of_ne here]
      have same : bytesFrom c r'.peer (u.net.eraseIdx i) = bytesFrom c r'.peer u.net := by
        rw [eq_peer_of_ne here]
        exact others
      rw [← same] at old
      exact old

/-! ### A program that stops in error -/

def Stopped (s : Sys c) : Prop := ∃ r, (s.host r).alive = false

theorem alive_receive {p : Program} {h : Host p} (o : DoRecv p.State) (stops : o = .exited ∨ o = .faulted) :
    (h.receive o).alive = false := by
  rcases stops with rfl | rfl <;> rfl

theorem room_of_equal (started : c.Started n) (numbers : ∀ r, (c.measureNumber r).toInt = n) (r : Role) :
    (c.program r).cap ≤ 2 ^ 24 := by
  have entries : n ≤ 100 := started.entries
  cases r with
  | master => exact (by decide : Master.entries ≤ 2 ^ 24)
  | slave =>
    have number := numbers .slave
    change (c.measureNumber .slave).toInt.toNat ≤ 2 ^ 24
    omega

/-- The read after one that was not a message stops the program. -/
theorem stopped_of_torn (started : c.Started n) (numbers : ∀ r, (c.measureNumber r).toInt = n)
    (follows : Follows c n positive torn s u a) (misread : torn r = true) {size : Nat} (headed : 40 ≤ size) {k : Stack}
    {cmsgs : List Cmsghdr} (taken : s.step (.recv r size k cmsgs) = some t) : (t.host r).alive = false := by
  obtain ⟨nic, read, ⟨-, -, there, -⟩, rfl⟩ := step_recv.mp taken
  have stream := follows.stream r
  rw [if_pos misread] at stream
  obtain ⟨ms, messages⟩ := messages_of_formed follows.link.formed r.peer
  have full : 40 ≤ ((s.stream r).take size).length := by rw [List.length_take, Nat.min_eq_left there]; exact headed
  have wrong := header_misread stream ms messages (List.take_append_drop size (s.stream r)).symm full
  have timed : nicTime cmsgs ≠ none := by
    rw [read]
    exact Option.some_ne_none nic
  dsimp only
  rw [Function.update_self]
  exact alive_receive _ (stops_of_misread k _ full timed (follows.ready r) (room_of_equal started numbers r) wrong)

theorem stopped_host {l : Mdelay.Label} (taken : u.step l = some v) (stopped : (u.host r).alive = false) :
    (v.host r).alive = false := by
  have kept {r' : Role} {h : Host (c.program r')} (same : (u.host r').alive = true ∨ h.alive = (u.host r').alive) :
      ((u.setHost r' h).host r).alive = false := by
    by_cases here : r = r'
    · subst here
      rw [setHost_self]
      rcases same with alive | same
      · rw [alive] at stopped
        cases stopped
      · rw [same, stopped]
    · rw [setHost_of_ne here, stopped]
  cases l with
  | event r' tv sw nic =>
    obtain ⟨x, -, ⟨alive, -⟩, rfl⟩ := step_event.mp taken
    cases sent : x.sendEvent (c.endian r') tv with
    | mk x bytes => cases bytes <;> exact kept (Or.inl alive)
  | followUp r' sw nic =>
    obtain ⟨x, -, ⟨alive, -⟩, rfl⟩ := step_followUp.mp taken
    cases sent : x.sendFollowUp (c.endian r') with
    | mk x bytes => cases bytes <;> exact kept (Or.inl alive)
  | poll r' =>
    obtain ⟨x, -, ⟨alive, -⟩, rfl⟩ := step_poll.mp taken
    exact kept (Or.inl alive)
  | loopback r' =>
    obtain ⟨q, -, rfl⟩ := step_loopback.mp taken
    exact kept (Or.inr rfl)
  | resume =>
    obtain ⟨x, -, ⟨alive, -⟩, rfl⟩ := step_resume.mp taken
    exact kept (Or.inl alive)
  | deliver r' i k cmsgs =>
    obtain ⟨d, nic, -, -, ⟨-, waits⟩, rfl⟩ := step_deliver.mp taken
    rw [Host.waits, Bool.and_eq_true, Bool.and_eq_true] at waits
    exact kept (Or.inl waits.1.1)
  | drop i =>
    obtain ⟨-, rfl⟩ := step_drop.mp taken
    exact stopped
  | dup i =>
    obtain ⟨d, -, rfl⟩ := step_dup.mp taken
    exact stopped

theorem stopped_step {l : Label} (stopped : Stopped s) (taken : s.step l = some t) : Stopped t := by
  obtain ⟨r, stopped⟩ := stopped
  refine ⟨r, ?_⟩
  have kept {r' : Role} {h : Host (c.program r')} (waits : (s.host r').waits r' = true) :
      (Function.update s.host r' h r).alive = false := by
    have other : r ≠ r' := by
      rintro rfl
      rw [Host.waits, stopped] at waits
      cases waits
    rw [Function.update_of_ne other, stopped]
  cases l with
  | move l =>
    obtain ⟨-, w, taken', rfl⟩ := step_move.mp taken
    exact stopped_host taken' stopped
  | recv r' size k cmsgs =>
    obtain ⟨nic, -, ⟨-, -, -, waits⟩, rfl⟩ := step_recv.mp taken
    exact kept waits
  | eof r' k =>
    obtain ⟨⟨-, -, waits⟩, rfl⟩ := step_eof.mp taken
    exact kept waits

/-! ### A program that has come to its end -/

theorem enough_of_closed (started : c.Started n) (follows : Follows c n positive torn s u a) (entered : positive)
    (shut : closed (s.host r) = true) : n ≤ (a.recorder r.side).count ∧ (u.host r).loop.status = .left := by
  have refines := follows.link.refines
  have alive := alive_of_refines refines r
  rw [(follows.host r).alive] at alive
  rw [closed, alive, Bool.not_true, Bool.or_false, ← (follows.host r).finished, Host.finished, Bool.and_eq_true,
    decide_eq_true_eq] at shut
  exact ⟨enough_of_left started refines entered shut.1, shut.1⟩

theorem message_le (formed : Formed c u.net) {d : Datagram} (member : d ∈ u.net) (src : d.src = c.address r) :
    r.pktsize ≤ (bytesFrom c r u.net).length := by
  obtain ⟨r', src', m, same⟩ := formed d member
  obtain rfl : r = r' := address_inj (src.symm.trans src')
  have part : d.bytes.Sublist (bytesFrom c r u.net) :=
    List.sublist_flatten_of_mem (List.mem_map_of_mem (List.mem_filter.mpr ⟨member, decide_eq_true src⟩))
  have length := part.length_le
  rwa [← same, m.length_bytes] at length

theorem unread_of_message (follows : Follows c n positive torn s u a) {m : Message Timespec} (member : m ∈ a.net)
    (dest : m.dest = r.side) : s.stream r ≠ [] := by
  obtain ⟨d, member', carries⟩ := Related.mem_right follows.link.refines.net member
  have src : d.src = c.address r.peer := by rw [carries.src, dest, playedBy_side]
  have bytes := message_le follows.link.formed member' src
  have header := pktsize_bounds r.peer
  have stream := follows.stream r
  intro empty
  rw [empty] at stream
  split at stream
  · exact stream.ne_nil bytes rfl
  · rw [← stream] at bytes
    rw [List.length_nil] at bytes
    omega

/-- A program that waits finds no end of its stream: when the peer has closed its socket, there is
something to read. -/
theorem eof_impossible (started : c.Started n) (numbers : ∀ r, (c.measureNumber r).toInt = n) (entered : positive)
    (follows : Follows c n positive torn s u a) (r : Role) (k : Stack) : s.step (.eof r k) = none := by
  by_contra read
  obtain ⟨t, taken⟩ := Option.ne_none_iff_exists'.mp read
  obtain ⟨⟨empty, shut, waits⟩, -⟩ := step_eof.mp taken
  have refines := follows.link.refines
  obtain ⟨enough, left⟩ := enough_of_closed started follows entered shut
  obtain ⟨nothing, counted⟩ := Exchange.other_done follows.link.tidy.traced follows.link.tidy.balanced enough
  rw [← (follows.host r).waits] at waits
  obtain ⟨accepts, -, -⟩ := accepts_of_waits refines waits
  have few := accepts.1
  rw [bound_of_equal started numbers] at few
  cases r with
  | slave => exact absurd counted (Nat.not_le_of_lt few)
  | master =>
    have idle : a.todo .responder = [] := by
      have sends := (refines.host .slave).sends
      cases (refines.host .slave).loops with
      | running status =>
        rw [show (u.host .slave).loop.status = .left from left] at status
        cases status
      | left _ _ idle =>
        rw [idle rfl] at sends
        exact sends.2.2.1
    obtain ⟨m, member, dest, -⟩ := Exchange.supplied_of_balanced follows.link.tidy.traced follows.link.tidy.balanced
      .initiator few idle fun _ => counted
    exact unread_of_message (r := .master) follows member dest empty

/-- A program has nothing left to send to a peer that has closed its socket. -/
theorem open_of_sends (started : c.Started n) (follows : Follows c n positive torn s u a) (entered : positive)
    {x : Sender} (calls : (s.host r).sender = some x) (more : x.pc = .loopHead ∨ x.pc = .followUp) :
    closed (s.host r.peer) = false := by
  by_contra shut
  obtain ⟨enough, -⟩ := enough_of_closed started follows entered (Bool.not_eq_false _ |>.mp shut)
  have nothing := (Exchange.other_done follows.link.tidy.traced follows.link.tidy.balanced enough).1
  have calls' := (follows.host r).sender
  rw [calls, Option.map_some] at calls'
  have sends := (follows.link.refines.host r).sends
  rw [calls'] at sends
  have side : r.peer.side.other = r.side := by cases r <;> rfl
  rw [side] at nothing
  rcases more with pc | pc
  · obtain ⟨k, rest, -, todo, -⟩ := calling_event sends pc ⟨0, 0⟩ ⟨0, 0⟩ ⟨0, 0⟩
    rw [nothing] at todo
    cases todo
  · obtain ⟨k, rest, -, -, -, todo, -⟩ := calling_followUp sends pc ⟨0, 0⟩ ⟨0, 0⟩
    rw [nothing] at todo
    cases todo

/-! ### Runs that see every header -/

def Label.read (r : Role) : Label → Option Nat
  | .recv r' size _ _ => if r' = r then some size else none
  | .move _ | .eof .. => none

/-- Every read but the last was one message, and so was the last unless `torn` says otherwise. -/
def ReadWhole (torn : Role → Bool) (ls : List Label) : Prop :=
  ∀ r, (∀ size ∈ (ls.filterMap (Label.read r)).dropLast, size = r.peer.pktsize) ∧
    (torn r = false → ∀ size ∈ ls.filterMap (Label.read r), size = r.peer.pktsize)

theorem readWhole_silent {ls : List Label} (whole : ReadWhole torn ls) {l : Label} (silent : ∀ r, l.read r = none) :
    ReadWhole torn (ls ++ [l]) := by
  intro r
  rw [List.filterMap_append, List.filterMap_cons_none (silent r), List.filterMap_nil, List.append_nil]
  exact whole r

theorem readWhole_recv {ls : List Label} (whole : ReadWhole torn ls) (aligned : torn r = false) (size : Nat) (k : Stack)
    (cmsgs : List Cmsghdr) :
    ReadWhole (Function.update torn r (decide (size ≠ r.peer.pktsize))) (ls ++ [.recv r size k cmsgs]) := by
  intro r'
  rw [List.filterMap_append]
  by_cases here : r = r'
  · subst here
    have read : (Label.recv r size k cmsgs).read r = some size := if_pos rfl
    rw [List.filterMap_cons_some read, List.filterMap_nil, List.dropLast_concat, Function.update_self]
    refine ⟨(whole r).2 aligned, fun last => List.forall_mem_append.mpr ⟨(whole r).2 aligned, ?_⟩⟩
    rw [List.forall_mem_singleton]
    simpa using last
  · have silent : (Label.recv r size k cmsgs).read r' = none := if_neg here
    rw [List.filterMap_cons_none silent, List.filterMap_nil, List.append_nil,
      Function.update_of_ne fun same => here same.symm]
    exact whole r'

/-- What the labels so far have led to, unless a program has stopped in error. -/
def Matched (c : Config) (n : Nat) (var : Role → Int) (s : Sys c) (ls : List Label) : Prop :=
  Stopped s ∨ ∃ torn ls' u a, Run Mdelay.Sys.step Ordered (Mdelay.Sys.start c var) ls' u ∧
    Follows c n (∀ r, 0 < var r) torn s u a ∧ ReadWhole torn ls

theorem matched_step (started : c.Started n) (numbers : ∀ r, (c.measureNumber r).toInt = n) {var : Role → Int}
    (entered : ∀ r, 0 < var r) {ls : List Label} (matched : Matched c n var s ls) {l : Label} (headed : Headed s l)
    (taken : s.step l = some t) : Matched c n var t (ls ++ [l]) := by
  rcases matched with stopped | ⟨torn, ls', u, a, run, follows, whole⟩
  · exact Or.inl (stopped_step stopped taken)
  have longer {l' : Mdelay.Label} {v : Mdelay.Sys c} (ordered : Ordered u l') (stepped : u.step l' = some v) :
      Run Mdelay.Sys.step Ordered (Mdelay.Sys.start c var) (ls' ++ [l']) v :=
    run_append.mpr ⟨u, run, ordered, v, stepped, rfl⟩
  cases l with
  | move l =>
    obtain ⟨v, b, ordered, stepped, -, follows'⟩ := follows_move started follows taken
    exact Or.inr ⟨torn, _, v, b, longer ordered stepped, follows', readWhole_silent whole fun _ => rfl⟩
  | recv r size k cmsgs =>
    cases misread : torn r with
    | true => exact Or.inl ⟨r, stopped_of_torn started numbers follows misread headed taken⟩
    | false =>
      obtain ⟨i, v, b, ordered, stepped, -, follows'⟩ := follows_recv started follows misread headed taken
      exact Or.inr ⟨_, _, v, b, longer ordered stepped, follows', readWhole_recv whole misread size k cmsgs⟩
  | eof r k =>
    rw [eof_impossible started numbers entered follows r k] at taken
    cases taken

theorem matched_run (started : c.Started n) (numbers : ∀ r, (c.measureNumber r).toInt = n) {var : Role → Int}
    (entered : ∀ r, 0 < var r) {ls : List Label} (run : Run Sys.step Headed (Sys.start c var) ls s) :
    Matched c n var s ls := by
  have whole : ReadWhole (fun _ => false) [] := fun r => ⟨List.forall_mem_nil _, fun _ => List.forall_mem_nil _⟩
  have start : Matched c n var (Sys.start c var) [] :=
    Or.inr ⟨_, [], _, _, rfl, follows_start started var, whole⟩
  have ended := run_history (I := Matched c n var) (f := some)
    (fun _ _ _ _ matched headed taken => matched_step started numbers entered matched headed taken) start run
  rwa [List.nil_append, List.filterMap_some] at ended

theorem file_alike (alike : ∀ r, HostAlike c r (s.host r) (u.host r)) (name : String) : s.file name = u.file name := by
  have results (r : Role) : (c.program r).results (u.host r).loop.st = (c.program r).results (s.host r).loop.st := by
    rw [Program.results, Program.results, Program.total, Program.total, (alike r).meas]
  have finished (r : Role) : (u.host r).finished = (s.hosts.host r).finished := (alike r).finished
  simp only [Sys.file, Mdelay.Sys.file, finished, results]
  rfl

/-- Whatever part of the stream each read returns, as long as it is a header at least: unless a program
stops in error, every read but its last was one message, and everything is as in a run over UDP in order. -/
theorem run_refines (one : 1 ≤ n) (fits : n ≤ Master.entries) (numbers : ∀ r, (c.measureNumber r).toInt = n)
    (var : Role → Int) (entered : ∀ r, 0 < var r) (ls : List Label)
    (run : Run Sys.step Headed (Sys.start c var) ls s) (alive : ∀ r, (s.host r).alive = true) :
    (∀ r, ∀ size ∈ (ls.filterMap (Label.read r)).dropLast, size = r.peer.pktsize) ∧
    ∃ ls' u, Run Mdelay.Sys.step Ordered (Mdelay.Sys.start c var) ls' u ∧ u.trace = s.trace ∧
      (∀ r, (u.host r).loop.status = (s.host r).loop.status ∧
        (c.program r).measurements (u.host r).loop.st = (c.program r).measurements (s.host r).loop.st) ∧
      ∀ name, s.file name = u.file name := by
  have started := started_of_equal one fits numbers
  rcases matched_run started numbers entered run with ⟨r, stopped⟩ | ⟨torn, ls', u, a, run', follows, whole⟩
  · rw [alive r] at stopped
    cases stopped
  · exact ⟨fun r => (whole r).1, ls', u, run', follows.trace.symm,
      fun r => ⟨(follows.host r).status, (follows.host r).meas⟩, file_alike follows.host⟩

def reading (r : Role) (size : Nat) (rx : Timespec) : Label :=
  .recv r size .cleared [⟨solSocket, soTimestamping, 48, [⟨0, 0⟩, ⟨0, 0⟩, rx]⟩]

/-- One measurement, in which the read of the DELAY_REQ_FOLLOW_UP returns `size` bytes. -/
def connection (size : Nat) : List Label :=
  (iteration .master ⟨7, 0⟩ ⟨0, 5⟩).map .move ++ [reading .slave 900 ⟨0, 9⟩, reading .slave size ⟨0, 91⟩] ++
    (iteration .slave ⟨7, 0⟩ ⟨0, 20⟩).map .move ++
    [.move .resume, reading .master 890 ⟨0, 33⟩, reading .master 890 ⟨0, 92⟩]

theorem run_connection_part : ∃ s, Run Sys.step Headed (Sys.start .single fun _ => 1) (connection 500) s ∧
    ((s.host .master).alive, (s.host .slave).alive, (s.stream .slave).length) = (true, true, 400) :=
  run_of_exec Sys.step Headed (Sys.start .single fun _ => 1) (connection 500) _ _ (by decide +kernel)

/-- The slave leaves 400 bytes of the last message unread. -/
theorem run_refines_part : ∃ s ls' u, Run Sys.step Headed (Sys.start .single fun _ => 1) (connection 500) s ∧
    Run Mdelay.Sys.step Ordered (Mdelay.Sys.start .single fun _ => 1) ls' u ∧ u.trace = s.trace := by
  obtain ⟨s, run, seen⟩ := run_connection_part
  obtain ⟨master, rest⟩ := Prod.mk.inj seen
  obtain ⟨-, ls', u, run', trace, -⟩ := run_refines (n := 1) (by decide) (by decide) (fun _ => rfl) _
    (fun _ => Int.one_pos) _ run fun r => by
      cases r with
      | master => exact master
      | slave => exact (Prod.mk.inj rest).1
  exact ⟨s, ls', u, run, run', trace⟩

/-- A master that gets both responses in one read of 900 bytes exits at its next read. -/
example : (exec Sys.step Headed (Sys.start .single fun _ => 1)
    ((connection 900).dropLast.dropLast ++ [reading .master 900 ⟨0, 33⟩, reading .master 880 ⟨0, 92⟩])).map
      (fun s => (s.host .master).loop.status) = some .exited := by decide +kernel

/-! ### Runs that read message by message -/

def Sys.busy (s : Sys c) : Label → Bool
  | .move l => s.hosts.busy l
  | .recv .. | .eof .. => true

theorem busy_alike (alike : ∀ r, HostAlike c r (s.host r) (u.host r)) (l : Mdelay.Label) :
    u.busy l = s.hosts.busy l := by
  cases l with
  | poll r => exact congrArg (fun q : ErrQueue => !q.queued.isEmpty) (alike r).errq
  | event | followUp | loopback | resume | deliver | drop | dup => rfl

/-- The state `u.1` of UDP mode and the exchange `u.2` beside a state of TCP mode in which no read has
left anything of a message behind. -/
abbrev InStep (c : Config) (n : Nat) (positive : Prop) (s : Sys c) (u : Mdelay.Sys c × Exchange Timespec) : Prop :=
  Follows c n positive (fun _ => false) s u.1 u.2

def effort (u : Mdelay.Sys c × Exchange Timespec) : Nat := u.2.workload + u.1.backlog

theorem effort_start (c : Config) (n : Nat) (var : Role → Int) :
    effort (Mdelay.Sys.start c var, Exchange.start n) = 26 * n := by
  have quiet : (Mdelay.Sys.start c var).backlog = 0 := rfl
  rw [effort, Exchange.workload_start, quiet, Nat.add_zero]

theorem inStep_step (started : c.Started n) (numbers : ∀ r, (c.measureNumber r).toInt = n) (entered : positive)
    {u : Mdelay.Sys c × Exchange Timespec} (inStep : InStep c n positive s u) {l : Label} (whole : Whole s l)
    (taken : s.step l = some t) :
    ∃ v, InStep c n positive t v ∧ effort v + (if s.busy l then 1 else 0) ≤ effort u := by
  have lowered {l' : Mdelay.Label} {v : Mdelay.Sys c} {b : Exchange Timespec} (ordered : Ordered u.1 l')
      (stepped : u.1.step l' = some v) (answers : Answers c u.2 l' b) (busy : u.1.busy l' = s.busy l) :
      effort (v, b) + (if s.busy l then 1 else 0) ≤ effort u := by
    rw [← busy]
    exact effort_lossless inStep.link.refines stepped answers (lossless_of_ordered ordered)
  cases l with
  | move l =>
    obtain ⟨v, b, ordered, stepped, answers, follows⟩ := follows_move started inStep taken
    exact ⟨(v, b), follows, lowered ordered stepped answers (busy_alike inStep.host l)⟩
  | recv r size k cmsgs =>
    obtain ⟨i, v, b, ordered, stepped, answers, follows⟩ :=
      follows_recv started inStep rfl (headed_of_whole whole) taken
    refine ⟨(v, b), ?_, lowered ordered stepped answers rfl⟩
    have message : decide (size ≠ r.peer.pktsize) = false := decide_eq_false fun other => other whole
    rw [message, Function.update_eq_self] at follows
    exact follows
  | eof r k =>
    rw [eof_impossible started numbers entered inStep r k] at taken
    cases taken

theorem inStep_run (started : c.Started n) (numbers : ∀ r, (c.measureNumber r).toInt = n) {var : Role → Int}
    (entered : ∀ r, 0 < var r) {ls : List Label} (run : Run Sys.step Whole (Sys.start c var) ls s) :
    ∃ u, InStep c n (∀ r, 0 < var r) s u := by
  refine run_invariant (I := fun s => ∃ u, InStep c n (∀ r, 0 < var r) s u) ?_ ⟨(_, _), follows_start started var⟩ run
  rintro s l t ⟨u, inStep⟩ whole taken
  obtain ⟨v, inStep', -⟩ := inStep_step started numbers entered inStep whole taken
  exact ⟨v, inStep'⟩

/-! ### No dead end -/

theorem calls_of_toward {addr : SockaddrIn} {h h' : Option Sender} (same : h' = h.map (toward addr)) {x : Sender}
    (calls : h' = some x) : ∃ y, h = some y ∧ y.pc = x.pc := by
  rw [same, Option.map_eq_some_iff] at calls
  obtain ⟨y, found, rfl⟩ := calls
  exact ⟨y, found, rfl⟩

theorem exists_move (alike : ∀ r, HostAlike c r (s.host r) (u.host r)) {l : Mdelay.Label}
    (own : ∀ r i k cmsgs, l ≠ .deliver r i k cmsgs) (lossless : Lossless u l) (taken : u.step l = some v) :
    ∃ w, s.hosts.step l = some w := by
  cases l with
  | event r tv sw nic =>
    obtain ⟨x, calls, ⟨alive, pc⟩, -⟩ := step_event.mp taken
    obtain ⟨y, calls', same⟩ := calls_of_toward (alike r).sender calls
    exact ⟨_, step_event.mpr ⟨y, calls', ⟨(alike r).alive.symm.trans alive, same.trans pc⟩, rfl⟩⟩
  | followUp r sw nic =>
    obtain ⟨x, calls, ⟨alive, pc⟩, -⟩ := step_followUp.mp taken
    obtain ⟨y, calls', same⟩ := calls_of_toward (alike r).sender calls
    exact ⟨_, step_followUp.mpr ⟨y, calls', ⟨(alike r).alive.symm.trans alive, same.trans pc⟩, rfl⟩⟩
  | poll r =>
    obtain ⟨x, calls, ⟨alive, reads⟩, -⟩ := step_poll.mp taken
    obtain ⟨y, calls', same⟩ := calls_of_toward (alike r).sender calls
    exact ⟨_, step_poll.mpr ⟨y, calls', ⟨(alike r).alive.symm.trans alive, same ▸ reads⟩, rfl⟩⟩
  | loopback r =>
    obtain ⟨q, looped, -⟩ := step_loopback.mp taken
    rw [(alike r).errq] at looped
    exact ⟨_, step_loopback.mpr ⟨q, looped, rfl⟩⟩
  | resume =>
    obtain ⟨x, calls, ⟨alive, pc⟩, -⟩ := step_resume.mp taken
    obtain ⟨y, calls', same⟩ := calls_of_toward (alike .slave).sender calls
    exact ⟨_, step_resume.mpr ⟨y, calls', ⟨(alike .slave).alive.symm.trans alive, same.trans pc⟩, rfl⟩⟩
  | deliver r i k cmsgs => exact absurd rfl (own r i k cmsgs)
  | drop | dup => exact lossless.elim

theorem step_of_hosts (started : c.Started n) (follows : Follows c n positive torn s u a) (entered : positive)
    {l : Mdelay.Label} (taken : s.hosts.step l = some w) : ∃ t, s.step (.move l) = some t := by
  refine ⟨_, step_move.mpr ⟨?_, w, taken, rfl⟩⟩
  intro r sender
  cases l with
  | event r' tv sw nic =>
    obtain rfl := Option.some.inj sender
    obtain ⟨x, calls, ⟨-, pc⟩, -⟩ := step_event.mp taken
    exact open_of_sends started follows entered calls (Or.inl pc)
  | followUp r' sw nic =>
    obtain rfl := Option.some.inj sender
    obtain ⟨x, calls, ⟨-, pc⟩, -⟩ := step_followUp.mp taken
    exact open_of_sends started follows entered calls (Or.inr pc)
  | poll | loopback | resume | deliver | drop | dup => cases sender

theorem exists_recv {u : Mdelay.Sys c × Exchange Timespec} (inStep : InStep c n positive s u) {i : Nat} {k : Stack}
    {cmsgs : List Cmsghdr} (taken : u.1.step (.deliver r i k cmsgs) = some v) :
    ∃ t, s.step (.recv r r.peer.pktsize k cmsgs) = some t := by
  obtain ⟨d, nic, found, read, ⟨dst, waits⟩, -⟩ := step_deliver.mp taken
  have member := List.mem_of_getElem? found
  obtain ⟨m, -, carries⟩ := Related.mem_left inStep.link.refines.net member
  have src : d.src = c.address r.peer := by rw [carries.src, address_inj (dst.symm.trans carries.dst)]
  have there : r.peer.pktsize ≤ (s.stream r).length := by
    rw [show s.stream r = _ from inStep.stream r]
    exact message_le inStep.link.formed member src
  have header := pktsize_bounds r.peer
  exact ⟨_, step_recv.mpr ⟨nic, read, ⟨by omega, header.2, there, (inStep.host r).waits.symm.trans waits⟩, rfl⟩⟩

theorem finished_of_hosts (follows : Follows c n positive torn s u a) (done : u.Finished) (r : Role) :
    (s.host r).finished = true := by
  rw [← (follows.host r).finished, Host.finished, done.2 r]
  cases r with
  | master =>
    obtain ⟨x, calls, returned⟩ := done.1
    simp [calls, returned]
  | slave =>
    cases (follows.link.refines.host .slave).loops with
    | running status =>
      rw [done.2 .slave] at status
      cases status
    | left _ _ idle =>
      rw [idle rfl]
      rfl

theorem exists_step (started : c.Started n) (numbers : ∀ r, (c.measureNumber r).toInt = n) (entered : positive)
    {u : Mdelay.Sys c × Exchange Timespec} (inStep : InStep c n positive s u)
    (short : ¬ ∀ r, (s.host r).finished = true) :
    ∃ l t v, Whole s l ∧ s.step l = some t ∧ InStep c n positive t v ∧ effort v < effort u := by
  obtain ⟨l, v, lossless, busy, taken⟩ := (progress started numbers entered inStep.link.refines
    inStep.link.tidy.balanced).resolve_right fun done => short (finished_of_hosts inStep done)
  have able : ∃ l' t, Whole s l' ∧ s.busy l' = true ∧ s.step l' = some t := by
    cases l with
    | deliver r i k cmsgs =>
      obtain ⟨t, taken'⟩ := exists_recv inStep taken
      exact ⟨.recv r r.peer.pktsize k cmsgs, t, rfl, rfl, taken'⟩
    | event | followUp | poll | loopback | resume | drop | dup =>
      obtain ⟨w, moved⟩ := exists_move inStep.host (by rintro _ _ _ _ ⟨⟩) lossless taken
      obtain ⟨t, taken'⟩ := step_of_hosts started inStep entered moved
      exact ⟨.move _, t, trivial, (busy_alike inStep.host _).symm.trans busy, taken'⟩
  obtain ⟨l', t, whole, busy', taken'⟩ := able
  obtain ⟨v', inStep', less⟩ := inStep_step started numbers entered inStep whole taken'
  rw [busy', if_pos rfl] at less
  exact ⟨l', t, v', whole, taken', inStep', less⟩

theorem total_of_left (started : c.Started n) (numbers : ∀ r, (c.measureNumber r).toInt = n)
    (follows : Follows c n positive torn s u a) (entered : positive) (left : (s.host r).loop.status = .left) :
    ((c.program r).total (s.host r).loop.st).toNat = n := by
  have refines := follows.link.refines
  have total := toNat_total_of_refines refines r
  rw [Program.total, (follows.host r).meas] at total
  have enough := refines.traced.orderly.enough r.side
  rw [bound_of_equal started numbers] at enough
  rw [← (follows.host r).status] at left
  exact total.trans (enough.antisymm (enough_of_left started refines entered left))

/-- As long as every read is one message, a run is never stuck and has no more steps than one over UDP. -/
theorem whole_run_ends (one : 1 ≤ n) (fits : n ≤ Master.entries) (numbers : ∀ r, (c.measureNumber r).toInt = n)
    (var : Role → Int) (entered : ∀ r, 0 < var r) (ls : List Label)
    (run : Run Sys.step Whole (Sys.start c var) ls s) :
    busySteps Sys.step Sys.busy (Sys.start c var) ls ≤ 26 * n ∧
    ∃ more t, Run Sys.step Whole s more t ∧ ∀ r, (t.host r).finished = true ∧
      ((c.program r).total (t.host r).loop.st).toNat = n := by
  have started := started_of_equal one fits numbers
  constructor
  · have whole := busySteps_le Sys.busy (InStep c n (∀ r, 0 < var r)) (fun _ u => effort u)
      (fun _ _ _ _ inStep whole taken => inStep_step started numbers entered inStep whole taken)
      (a := (Mdelay.Sys.start c var, Exchange.start n)) (follows_start started var) run
    rwa [effort_start] at whole
  · obtain ⟨u, inStep⟩ := inStep_run started numbers entered run
    obtain ⟨more, t, v, rest, inStep', done⟩ :=
      exists_run_of_progress (InStep c n (∀ r, 0 < var r)) (fun _ u => effort u)
        (fun s => ∀ r, (s.host r).finished = true)
        (fun _ _ inStep short => exists_step started numbers entered inStep short) inStep
    refine ⟨more, t, rest, fun r => ⟨done r, ?_⟩⟩
    have finished := done r
    rw [Host.finished, Bool.and_eq_true, decide_eq_true_eq] at finished
    exact total_of_left started numbers inStep' entered finished.1

theorem run_connection : ∃ s, Run Sys.step Whole (Sys.start .single fun _ => 1) (connection 900) s ∧
    closed (s.host .slave) = true :=
  run_of_exec Sys.step Whole (Sys.start .single fun _ => 1) (connection 900) _ _ (by decide +kernel)

theorem whole_run_ends_single : ∃ s more t,
    Run Sys.step Whole (Sys.start .single fun _ => 1) (connection 900) s ∧ Run Sys.step Whole s more t ∧
      (t.host .master).finished = true := by
  obtain ⟨s, run, -⟩ := run_connection
  obtain ⟨-, more, t, rest, done⟩ := whole_run_ends (n := 1) (by decide) (by decide) (fun _ => rfl) _
    (fun _ => Int.one_pos) _ run
  exact ⟨s, more, t, run, rest, (done .master).1⟩

/-- A program that has closed its socket has read all that was sent to it. Its peer finds no end of the
stream where it waits for more, and has nothing more to send. -/
theorem orderly_close (one : 1 ≤ n) (fits : n ≤ Master.entries) (numbers : ∀ r, (c.measureNumber r).toInt = n)
    (var : Role → Int) (entered : ∀ r, 0 < var r) (ls : List Label)
    (run : Run Sys.step Whole (Sys.start c var) ls s) (r : Role) (shut : closed (s.host r) = true) :
    s.stream r = [] ∧ (∀ k, s.step (.eof r.peer k) = none) ∧
      ∀ x, (s.host r.peer).sender = some x → x.pc ≠ .loopHead ∧ x.pc ≠ .followUp := by
  have started := started_of_equal one fits numbers
  obtain ⟨u, inStep⟩ := inStep_run started numbers entered run
  obtain ⟨enough, -⟩ := enough_of_closed started inStep entered shut
  refine ⟨?_, fun k => eof_impossible started numbers entered inStep r.peer k, fun x calls => ?_⟩
  · have none := Exchange.nothing_onWay inStep.link.tidy enough
    rw [show s.stream r = _ from inStep.stream r]
    by_contra some
    obtain ⟨i, d, found, src, -⟩ := first_of_bytes some
    obtain ⟨m, member, carries⟩ := Related.mem_left inStep.link.refines.net (List.mem_of_getElem? found)
    refine none m member ?_
    have same := address_inj (src.symm.trans carries.src)
    rw [← side_playedBy m.dest, ← peer_peer (playedBy m.dest), ← same, peer_peer]
  · have sending (more : x.pc = .loopHead ∨ x.pc = .followUp) : False := by
      have opened := open_of_sends started inStep entered calls more
      rw [peer_peer, shut] at opened
      cases opened
    exact ⟨fun pc => sending (Or.inl pc), fun pc => sending (Or.inr pc)⟩

theorem orderly_close_single : ∃ s, Run Sys.step Whole (Sys.start .single fun _ => 1) (connection 900) s ∧
    s.stream .slave = [] := by
  obtain ⟨s, run, shut⟩ := run_connection
  exact ⟨s, run, (orderly_close (n := 1) (by decide) (by decide) (fun _ => rfl) _ (fun _ => Int.one_pos) _ run
    .slave shut).1⟩

end Mdelay.Tcp
