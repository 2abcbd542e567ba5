import Mdelay.Library.Related
import Mdelay.Proofs.Receiving
import Mdelay.Protocol.Delivery

/-!
# The closed system refines the two-step exchange

The master is the initiator and the slave the responder. Reading the error queue, the kernel's
loop-backs and the return of the slave's call are no steps of the exchange.
-/

namespace Mdelay
open ByteOrder TwoStep Transition

def Role.side : Role → Side
  | .master => .initiator
  | .slave => .responder

def playedBy : Side → Role
  | .initiator => .master
  | .responder => .slave

@[simp] theorem playedBy_side (r : Role) : playedBy r.side = r := by cases r <;> rfl

@[simp] theorem side_playedBy (p : Side) : (playedBy p).side = p := by cases p <;> rfl

@[simp] theorem playedBy_other (p : Side) : playedBy p.other = (playedBy p).peer := by cases p <;> rfl

@[simp] theorem peer_peer (r : Role) : r.peer.peer = r := by cases r <;> rfl

def sighted (o : Sighting Timespec) : Obs :=
  ⟨playedBy o.side, o.sent, (if o.sent then playedBy o.side else (playedBy o.side).peer).code o.followUp,
    BitVec.ofNat 32 o.seq, o.time⟩

def Config.bound (c : Config) (p : Side) : Nat := (c.program (playedBy p)).bound.toNat

structure Config.Started (c : Config) (n : Nat) : Prop where
  positive : 1 ≤ n
  entries : n ≤ Master.entries
  master : (c.measureNumber .master).toInt = n
  slave : n ≤ (c.measureNumber .slave).toInt

/-! ### The relation -/

/-- The header of a message; `user` is the time `gettimeofday` gave its sender. -/
def messageHeader (m : Message Timespec) (user : BitVec 64) : Header :=
  match m.stamp with
  | none => (playedBy m.dest).peer.eventHeader (BitVec.ofNat 32 m.seq) user
  | some t => (playedBy m.dest).peer.followUpHeader (BitVec.ofNat 32 m.seq) user t.nanos

structure Carries (c : Config) (d : Datagram) (m : Message Timespec) : Prop where
  src : d.src = c.address (playedBy m.dest).peer
  dst : d.dst = c.address (playedBy m.dest)
  bytes : ∃ user size fill, d.bytes = (messageHeader m user).message size fill

/-- The call of the sender, if there is one: the thread of the master has one from the start. -/
def Sends (c : Config) (r : Role) (sender : Option Sender) (errq : ErrQueue) (todo : List Nat)
    (stage : Option Timespec) : Prop :=
  match sender with
  | some x => Calling r (c.endian r) (c.address r.peer) x errq todo stage
  | none => r = .slave ∧ errq = ⟨[], []⟩ ∧ todo = [] ∧ stage = none

/-- The receive loop goes on while the count is below the bound, and the slave looks at the count once
its call has returned. A loop whose variable was not positive at the entry takes one datagram. -/
inductive Loops {p : Program} (positive : Prop) (r : Role) (h : Host p) (count received : Nat) : Prop where
  | running (status : h.loop.status = .running)
      (var : 0 < h.loop.var ∨ ¬ positive ∧ received ≤ 1 ∧ (r = .master ∨ h.sender = none → received = 0))
      (few : r = .master ∨ h.sender = none → count < p.bound.toNat) (got : h.sender ≠ none → r = .slave → 0 < h.got)
  | left (status : h.loop.status = .left) (enough : p.bound.toNat ≤ count ∨ ¬ positive ∧ received ≤ 1)
      (idle : r = .slave → h.sender = none)

structure HostRefines (c : Config) (positive : Prop) (r : Role) (h : Host (c.program r))
    (a : Exchange Timespec) : Prop where
  meas : Represents Timespec.nanos ((c.program r).measurements h.loop.st) (a.recorder r.side)
  sends : Sends c r h.sender h.errq (a.todo r.side) (a.stage r.side)
  loops : Loops positive r h (a.recorder r.side).count (receptions a.trace r.side)

structure Refines (c : Config) (n : Nat) (positive : Prop) (s : Sys c) (a : Exchange Timespec) : Prop where
  host : ∀ r, HostRefines c positive r (s.host r) a
  peer : Slave.State.Peer (c.endian .slave) (c.address .master) (s.host .slave).loop.st
  net : List.Forall₂ (Carries c) s.net a.net
  trace : s.trace = a.trace.map sighted
  traced : Exchange.Traced n c.bound a

def Label.action : Label → Option (Action Timespec)
  | .event r _ _ nic => some (.event r.side nic)
  | .followUp r _ nic => some (.followUp r.side nic)
  | .poll _ | .loopback _ | .resume => none
  | .deliver r i _ cmsgs => some (.deliver r.side i ((nicTime cmsgs).getD ⟨0, 0⟩))
  | .drop i => some (.drop i)
  | .dup i => some (.dup i)

variable {c : Config} {n : Nat} {positive : Prop} {s t : Sys c} {a : Exchange Timespec}

/-! ### What the configuration gives -/

theorem bound_master (started : c.Started n) : (c.program .master).bound.toNat = n := by
  have number := started.master
  have small : n ≤ 100 := started.entries
  change ((c.measureNumber .master).setWidth 64).toNat = n
  rw [BitVec.toInt_eq_toNat_cond] at number
  rw [BitVec.toNat_setWidth]
  have fits := (c.measureNumber .master).isLt
  split at number <;> omega

theorem bound_slave (started : c.Started n) :
    ((c.program .slave).bound.toNat : Int) = (c.measureNumber .slave).toInt := by
  have number := started.slave
  change (((c.measureNumber .slave).signExtend 64).toNat : Int) = _
  have signed : ((c.measureNumber .slave).signExtend 64).toInt = (c.measureNumber .slave).toInt :=
    BitVec.toInt_signExtend_of_le (by decide)
  rw [← signed] at number ⊢
  rw [BitVec.toInt_eq_toNat_of_msb]
  rw [BitVec.msb_eq_false_iff_two_mul_lt]
  rw [BitVec.toInt_eq_toNat_cond] at number
  have fits := ((c.measureNumber .slave).signExtend 64).isLt
  split at number <;> omega

theorem le_cap (started : c.Started n) (r : Role) : n ≤ (c.program r).cap := by
  cases r with
  | master => exact started.entries
  | slave =>
    have number := started.slave
    change n ≤ (c.measureNumber .slave).toInt.toNat
    omega

theorem le_bound (started : c.Started n) (p : Side) : n ≤ c.bound p := by
  cases p with
  | initiator => exact (bound_master started).ge
  | responder =>
    have number := started.slave
    rw [← bound_slave started] at number
    exact_mod_cast number

theorem bound_lt (c : Config) (p : Side) : c.bound p < 2 ^ 64 := BitVec.isLt _

theorem address_inj {r r' : Role} (same : c.address r = c.address r') : r = r' := by
  cases r <;> cases r'
  · rfl
  · exact absurd same c.apart
  · exact absurd same.symm c.apart
  · rfl

theorem eq_peer_of_ne {r r' : Role} (other : r' ≠ r) : r' = r.peer := by
  cases r <;> cases r' <;> first | rfl | exact absurd rfl other

/-! ### Messages and sightings -/

theorem messageHeader_type (m : Message Timespec) (user : BitVec 64) :
    (messageHeader m user).type = (playedBy m.dest).peer.code m.stamp.isSome := by
  unfold messageHeader
  cases m.stamp <;> simp

theorem messageHeader_seq (m : Message Timespec) (user : BitVec 64) :
    (messageHeader m user).seq = BitVec.ofNat 32 m.seq := by
  unfold messageHeader
  cases m.stamp <;> simp

theorem obs_sent {m : Message Timespec} (user : BitVec 64) (size : Nat) (fill : Byte) (nic : Timespec) :
    Obs.of (playedBy m.dest).peer true ((messageHeader m user).message size fill) nic =
      sighted ⟨m.dest.other, true, m.stamp.isSome, m.seq, nic⟩ := by
  simp only [Obs.of, decode_message, messageHeader_type, messageHeader_seq, sighted, playedBy_other, if_true]

theorem obs_received {m : Message Timespec} (user : BitVec 64) (size : Nat) (fill : Byte) (nic : Timespec) :
    Obs.of (playedBy m.dest) false ((messageHeader m user).message size fill) nic =
      sighted ⟨m.dest, false, m.stamp.isSome, m.seq, nic⟩ := by
  simp [Obs.of, decode_message, messageHeader_type, messageHeader_seq, sighted]

/-! ### Changing one host -/

theorem setHost_self (s : Sys c) (r : Role) (h : Host (c.program r)) : (s.setHost r h).host r = h :=
  Function.update_self ..

theorem setHost_of_ne {r r' : Role} (other : r' ≠ r) (h : Host (c.program r)) : (s.setHost r h).host r' = s.host r' :=
  Function.update_of_ne other ..

theorem hosts_set {b : Exchange Timespec} (host : ∀ r, HostRefines c positive r (s.host r) a) {r : Role}
    {h : Host (c.program r)} (new : HostRefines c positive r h b) (todo : b.todo r.peer.side = a.todo r.peer.side)
    (stage : b.stage r.peer.side = a.stage r.peer.side) (recorder : b.recorder r.peer.side = a.recorder r.peer.side)
    (received : receptions b.trace r.peer.side = receptions a.trace r.peer.side) :
    ∀ r', HostRefines c positive r' ((s.setHost r h).host r') b := by
  intro r'
  by_cases same : r' = r
  · subst same
    rw [setHost_self]
    exact new
  · obtain ⟨meas, sends, loops⟩ := host r'
    rw [setHost_of_ne same]
    rw [eq_peer_of_ne same] at meas sends loops ⊢
    exact ⟨recorder ▸ meas, todo ▸ stage ▸ sends, recorder ▸ received ▸ loops⟩

theorem setHost_loop {r : Role} {h : Host (c.program r)} (same : h.loop = (s.host r).loop) (r' : Role) :
    ((s.setHost r h).host r').loop = (s.host r').loop := by
  by_cases here : r' = r
  · subst here
    rw [setHost_self, same]
  · rw [setHost_of_ne here]

theorem Loops.send {p : Program} {r : Role} {h : Host p} {count received : Nat}
    (loops : Loops positive r h count received) {x : Sender}
    (calls : h.sender = some x) (x' : Sender) (q : ErrQueue) :
    Loops positive r { h with sender := some x', errq := q } count received := by
  have busy : h.sender ≠ none := by
    rw [calls]
    exact Option.some_ne_none x
  cases loops with
  | running status var few got =>
    have still : r = .master ∨ some x' = none → r = .master ∨ h.sender = none := by
      rintro (master | none)
      · exact Or.inl master
      · cases none
    exact .running status (var.imp_right fun ⟨negative, one, idle⟩ => ⟨negative, one, idle ∘ still⟩) (few ∘ still)
      fun _ => got busy
  | left status enough idle => exact .left status enough fun slave => absurd (idle slave) busy

theorem refines_setHost (refines : Refines c n positive s a) {r : Role} {h : Host (c.program r)}
    (new : HostRefines c positive r h a) (same : h.loop = (s.host r).loop) :
    Refines c n positive (s.setHost r h) a where
  host := hosts_set refines.host new rfl rfl rfl rfl
  peer := by
    rw [setHost_loop same]
    exact refines.peer
  net := refines.net
  trace := refines.trace
  traced := refines.traced

/-! ### Sending -/

theorem refines_sendto (refines : Refines c n positive s a) {b : Exchange Timespec} {r : Role} {x x' : Sender}
    (calls : (s.host r).sender = some x) {sw nic : Timespec} {bytes : List Byte} {k : Nat} {stamp : Option Timespec}
    (calling : Calling r (c.endian r) (c.address r.peer) x' ((s.host r).errq.sendto sw nic)
      (b.todo r.side) (b.stage r.side))
    (todo : b.todo r.peer.side = a.todo r.peer.side) (stage : b.stage r.peer.side = a.stage r.peer.side)
    (recorder : b.recorder = a.recorder) (net : b.net = a.net ++ [⟨r.side.other, k, stamp⟩])
    (trace : b.trace = a.trace ++ [⟨r.side, true, stamp.isSome, k, nic⟩]) (traced : Exchange.Traced n c.bound b)
    {user : BitVec 64} {size : Nat} {fill : Byte}
    (content : bytes = (messageHeader ⟨r.side.other, k, stamp⟩ user).message size fill) :
    Refines c n positive (s.sendto r sw nic (x', some bytes)) b where
  host := by
    have received (p : Side) : receptions b.trace p = receptions a.trace p := by
      rw [trace, receptions_snoc, if_neg (fun ⟨_, absurd⟩ => by cases absurd), Nat.add_zero]
    refine hosts_set refines.host ⟨?_, calling, ?_⟩ todo stage (by rw [recorder]) (received _)
    · rw [recorder]
      exact (refines.host r).meas
    · rw [recorder, received]
      exact (refines.host r).loops.send calls x' _
  peer := by
    have same := setHost_loop (s := s) (r := r)
      (h := { s.host r with sender := some x', errq := (s.host r).errq.sendto sw nic }) rfl .slave
    change Slave.State.Peer _ _ ((s.setHost r _).host .slave).loop.st
    rw [same]
    exact refines.peer
  net := by
    rw [net]
    refine Related.snoc refines.net ⟨?_, ?_, user, size, fill, content⟩
    · simp
    · simpa using calling.dsa
  trace := by
    rw [trace, List.map_append, ← refines.trace, List.map_singleton, Sys.sendto, content]
    have seen := obs_sent (m := ⟨r.side.other, k, stamp⟩) user size fill nic
    simp only [playedBy_other, playedBy_side, peer_peer, other_other] at seen
    rw [seen]
  traced := traced

end Mdelay
