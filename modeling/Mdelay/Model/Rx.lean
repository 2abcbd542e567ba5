import Mathlib.Logic.Function.Basic
import Mdelay.Model.Options
import Mdelay.Model.Program

/-!
# rx_timestamping.c and the reading side of summarize.py

The reference receiver notes three latencies of every packet that has timestamps, in arrays of the length the
command line gives, broadcasts the packet back, and prints the arrays when it stops.
-/

namespace Mdelay
open ByteOrder

namespace Rx

variable {cap : Nat}

/-! ### The latency numbers -/

/-- `total_received` and the three arrays, each of `cap` entries. -/
structure Latencies (cap : Nat) where
  totalReceived : BitVec 64
  nicKernel : Fin cap → BitVec 64
  nicUser : Fin cap → BitVec 64
  kernelUser : Fin cap → BitVec 64

/-- What `malloc` gave, with nothing received. -/
def Latencies.malloc (nicKernel nicUser kernelUser : Fin cap → BitVec 64) : Latencies cap :=
  ⟨0, nicKernel, nicUser, kernelUser⟩

/-- `numbers[i] = latency`, `none` when the entry lies outside the array. -/
def put (numbers : Fin cap → BitVec 64) (i latency : BitVec 64) : Option (Fin cap → BitVec 64) :=
  if inside : i.toNat < cap then some (Function.update numbers ⟨i.toNat, inside⟩ latency) else none

/-- `ts` is the array of timestamps found, if any. `none` when memory outside an array is accessed. -/
def printTime (ts : Option (List Timespec)) (timeUser : Timeval) (s : Latencies cap) : Option (Latencies cap) :=
  match ts with
  | none => some s
  | some ts =>
    match ts[0]?, ts[2]? with
    | some ts0, some ts2 =>
      let diffNicKernel := (ts0.tvSec - ts2.tvSec) * 1000000000 + (ts0.tvNsec - ts2.tvNsec)
      let diffKernelUser := (timeUser.tvSec - ts0.tvSec) * 1000000000 + (timeUser.tvUsec * 1000 - ts0.tvNsec)
      let diffNicUser := (timeUser.tvSec - ts2.tvSec) * 1000000000 + (timeUser.tvUsec * 1000 - ts2.tvNsec)
      -- The counter is advanced between the first write and the other two.
      let totalReceived := s.totalReceived + 1
      (put s.nicKernel s.totalReceived diffNicKernel).bind fun nicKernel =>
        (put s.nicUser totalReceived diffNicUser).bind fun nicUser =>
          (put s.kernelUser totalReceived diffKernelUser).map fun kernelUser =>
            ⟨totalReceived, nicKernel, nicUser, kernelUser⟩
    | _, _ => none

/-! ### do_recv -/

def bufferSize : Nat := 2048

/-- One call of `do_recv`: the locals as they are before, what `recvmsg` returns and leaves in `errno`, the
time `gettimeofday` returns, and whether the socket calls of `broadcast` succeed. -/
structure Call where
  buffer : List Byte
  control : List Cmsghdr
  recvmsg : Recvmsg
  eagain : Bool
  timeUser : Timeval
  sendto : Bool
  size : buffer.length = bufferSize

def Call.got (r : Call) : Int :=
  match r.recvmsg with
  | .error => -1
  | .message bytes _ _ => (bytes.take bufferSize).length

def Call.received (r : Call) : List Byte :=
  match r.recvmsg with
  | .error => r.buffer
  | .message bytes _ _ => memcpy r.buffer (bytes.take bufferSize)

def Call.cmsgs (r : Call) : List Cmsghdr :=
  match r.recvmsg with
  | .error => r.control
  | .message _ _ cmsgs => putCmsgs 1024 cmsgs

/-- What a call prints, and the datagram that it broadcasts. -/
structure Packet where
  seq : BitVec 32
  got : Int
  datagram : List Byte
  deriving DecidableEq

inductive Outcome (cap : Nat) where
  | returned (got : Int) (st : Latencies cap) (packet : Option Packet)
  | exited
  | faulted

/-- The scan of `handle_time` is that of `retrieve_timestamp`. No datagram has the length -1. -/
def doRecv (e : Endian) (r : Call) (s : Latencies cap) : Outcome cap :=
  if r.got = 0 ∧ r.eagain then .returned 0 s none
  else
    let mdelayhdr := Mdelayhdr.ofBytes e r.received
    match printTime (retrieveTimestamp r.cmsgs) r.timeUser s with
    | none => .faulted
    | some s =>
      if 0 ≤ r.got ∧ r.sendto then
        .returned r.got s (some ⟨ntohl e mdelayhdr.seq, r.got, r.received.take r.got.toNat⟩)
      else .exited

/-! ### main -/

/-- The loop of `main`, with the packets so far. -/
structure Loop (cap : Nat) where
  status : LoopStatus
  pktNum : BitVec 32
  st : Latencies cap
  packets : List Packet

def Configuration.entries (cfg : Configuration) : Nat := cfg.cfgMaxPackets.toNat

/-- The test before the first turn passes whatever the bound is. -/
def Loop.enter (st : Latencies cap) : Loop cap := ⟨.running, 1, st, []⟩

/-- One turn of the loop and the next test, which counts also when it fails. -/
def Configuration.turn (e : Endian) (cfg : Configuration) (l : Loop cfg.entries) (r : Call) :
    Option (Loop cfg.entries) :=
  if l.status = .running then
    match doRecv e r l.st with
    | .returned got st packet =>
      let packets := l.packets ++ packet.toList
      if got = 0 ∧ cfg.cfgProtocol = .tcp then some ⟨.left, l.pktNum, st, packets⟩
      else if l.pktNum < cfg.cfgMaxPackets ∨ cfg.cfgMaxPackets = 0 then
        some ⟨.running, l.pktNum + 1, st, packets⟩
      else some ⟨.left, l.pktNum + 1, st, packets⟩
    | .exited => some { l with status := .exited }
    | .faulted => some { l with status := .faulted }
  else none

/-- `fprintf(f, "%ld,%ld,%ld\n", ...)` -/
def line (nicUser nicKernel kernelUser : BitVec 64) : List Char :=
  Text.signed nicUser.toInt ++ ',' :: Text.signed nicKernel.toInt ++ ',' :: Text.signed kernelUser.toInt ++ ['\n']

/-- The contents of `latency.txt`, `none` when an array is read past its end. -/
def Latencies.file (s : Latencies cap) : Option (List Char) :=
  ((List.range s.totalReceived.toNat).mapM fun i =>
    if inside : i < cap then some (line (s.nicUser ⟨i, inside⟩) (s.nicKernel ⟨i, inside⟩) (s.kernelUser ⟨i, inside⟩))
    else none).map List.flatten

end Rx

/-! ### summarize.py -/

namespace Summarize

def readLine (line : List Char) : Option (Int × Int × Int) := do
  let columns := line.splitOn ','
  let nicUser ← columns[0]?.bind Text.readInt
  let nicKernel ← columns[1]?.bind Text.readInt
  let kernelUser ← columns[2]?.bind Text.readInt
  return (nicKernel, nicUser, kernelUser)

/-- The three lists; `none` for an exception. -/
def getLatencyNumbers (file : List Char) : Option (List Int × List Int × List Int) :=
  ((Text.readlines file).mapM readLine).map fun rows =>
    (rows.map Prod.fst, rows.map fun row => row.2.1, rows.map fun row => row.2.2)

end Summarize

end Mdelay
