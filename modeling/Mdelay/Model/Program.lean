import Mathlib.Logic.Function.Basic
import Mdelay.Model.Sender

/-!
# What both programs share

The measurement array with its counter, one `recvmsg` into the locals of `do_recv`, the receive
loop of `main`, and `store_results_to_file`.
-/

namespace Mdelay
open ByteOrder

/-! ### The measurement array -/

structure P2pdelay where
  sentTt : BitVec 64
  recvTt : BitVec 64
  deriving DecidableEq

/-- The two static variables of a program whose array has `cap` entries. -/
structure Measurements (cap : Nat) where
  totalMeasurements : BitVec 64
  p2pdelayMeasurements : Fin cap → P2pdelay

variable {cap : Nat}

inductive Role where
  | master | slave
  deriving DecidableEq

def Measurements.calloc (cap : Nat) : Measurements cap := ⟨0, fun _ => ⟨0, 0⟩⟩

def Measurements.count (m : Measurements cap) : Measurements cap :=
  { m with totalMeasurements := m.totalMeasurements + 1 }

/-- A write to the entry at `pktseq`, `none` when it lies outside the array. -/
def Measurements.modify (m : Measurements cap) (pktseq : Int) (f : P2pdelay → P2pdelay) :
    Option (Measurements cap) :=
  if inside : 0 ≤ pktseq ∧ pktseq < cap then
    let i : Fin cap := ⟨pktseq.toNat, by omega⟩
    some { m with p2pdelayMeasurements :=
      Function.update m.p2pdelayMeasurements i (f (m.p2pdelayMeasurements i)) }
  else none

def Measurements.setRecv (m : Measurements cap) (pktseq : Int) (t : BitVec 64) :
    Option (Measurements cap) :=
  m.modify pktseq fun d => { d with recvTt := t }

def Measurements.setSent (m : Measurements cap) (pktseq : Int) (t : BitVec 64) :
    Option (Measurements cap) :=
  m.modify pktseq fun d => { d with sentTt := t }

/-! ### Receiving -/

def payloadSize : Nat := 900

inductive Recvmsg where
  | error
  | message (bytes : List Byte) (src : SockaddrIn) (cmsgs : List Cmsghdr)

structure Stack where
  buffer : List Byte
  control : List Cmsghdr
  hostAddress : SockaddrIn
  size : buffer.length = payloadSize

def Recvmsg.got : Recvmsg → Int
  | .error => -1
  | .message bytes _ _ => (bytes.take payloadSize).length

def Recvmsg.buffer (k : Stack) : Recvmsg → List Byte
  | .error => k.buffer
  | .message bytes _ _ => memcpy k.buffer (bytes.take payloadSize)

def Recvmsg.control (k : Stack) : Recvmsg → List Cmsghdr
  | .error => k.control
  | .message _ _ cmsgs => putCmsgs 1024 cmsgs

def Recvmsg.hostAddress (k : Stack) : Recvmsg → SockaddrIn
  | .error => k.hostAddress
  | .message _ src _ => src

/-- How a call of `do_recv` ends, or stops at its call of `send_udp_packets_timestamp`. -/
inductive DoRecv (σ : Type) where
  | returned (got : Int) (st : σ)
  | sending (got : Int) (st : σ) (call : Sender)
  | exited
  | faulted

def DoRecv.written {σ : Type} (got : Int) (st : Option σ) : DoRecv σ :=
  match st with
  | some st => .returned got st
  | none => .faulted

/-! ### The receive loop -/

/-- A program: its array and counter inside its state, its `do_recv`, the bound its loop compares
the counter with, and the packets it measures. `allocated` says that `calloc` gave an array. -/
structure Program where
  cap : Nat
  State : Type
  start : State
  measurements : State → Measurements cap
  doRecv : Stack → Recvmsg → State → DoRecv State
  bound : BitVec 64
  allocated : Bool
  event : PktType
  followUp : PktType
  stamp : Header → BitVec 64

/-- `faulted` is an access outside an array, with which a run is over. The compiled program may go on where it
meets memory that the program has. -/
inductive LoopStatus where
  | running
  | left
  | exited
  | faulted
  deriving DecidableEq

/-- The receive loop of `main`; `var` is `echo` or `got`. -/
structure Program.Loop (p : Program) where
  status : LoopStatus
  var : Int
  st : p.State

def Program.enter (p : Program) (var : Int) : p.Loop := ⟨.running, var, p.start⟩

def Program.total (p : Program) (st : p.State) : BitVec 64 := (p.measurements st).totalMeasurements

/-- `var = do_recv(...) && var > 0 && total_measurements < measure_number` -/
def loopTest (got var : Int) (total bound : BitVec 64) : Int :=
  if got ≠ 0 ∧ 0 < var ∧ total < bound then 1 else 0

def Program.afterRecv (p : Program) (l : p.Loop) (got : Int) (st : p.State) : p.Loop :=
  let var := loopTest got l.var (p.total st) p.bound
  ⟨if var ≠ 0 then .running else .left, var, st⟩

theorem afterRecv_of_test {p : Program} {l : p.Loop} {got : Int} {st : p.State}
    (passed : got ≠ 0 ∧ 0 < l.var ∧ p.total st < p.bound) : p.afterRecv l got st = ⟨.running, 1, st⟩ := by
  simp only [Program.afterRecv, loopTest, if_pos passed]
  rfl

theorem afterRecv_of_not_test {p : Program} {l : p.Loop} {got : Int} {st : p.State}
    (failed : ¬(got ≠ 0 ∧ 0 < l.var ∧ p.total st < p.bound)) : p.afterRecv l got st = ⟨.left, 0, st⟩ := by
  simp only [Program.afterRecv, loopTest, if_neg failed]
  rfl

/-- One turn of the loop. A call of `send_udp_packets_timestamp` touches nothing of the program's
state and is taken to return. -/
def Program.turn (p : Program) (l : p.Loop) (input : Stack × Recvmsg) : Option p.Loop :=
  if l.status = .running then
    match p.doRecv input.1 input.2 l.st with
    | .returned got st => some (p.afterRecv l got st)
    | .sending got st _ => some (p.afterRecv l got st)
    | .exited => some { l with status := .exited }
    | .faulted => some { l with status := .faulted }
  else none

/-! ### store_results_to_file -/

/-- `fprintf(f, "%lu\n", v)` -/
def fprintfLu (v : BitVec 64) : List Char := Text.decimal v.toNat ++ ['\n']

def P2pdelay.delay (d : P2pdelay) : BitVec 64 := d.recvTt - d.sentTt

/-- The contents of the file, `none` when none is written: the array is NULL or is read past its
end. -/
def storeResultsToFile (p2pdelayMeasurements : Option (Fin cap → P2pdelay)) (total : BitVec 64) :
    Option (List Char) :=
  match p2pdelayMeasurements with
  | none => none
  | some measurements =>
    ((List.range total.toNat).mapM fun i =>
      if inside : i < cap then some (fprintfLu (measurements ⟨i, inside⟩).delay) else none).map
      List.flatten

def Program.results (p : Program) (st : p.State) : Option (List Char) :=
  storeResultsToFile (if p.allocated then some (p.measurements st).p2pdelayMeasurements else none)
    (p.total st)

end Mdelay
